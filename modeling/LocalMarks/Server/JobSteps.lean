import LocalMarks.Server.Jobs

/-!
# What a step of the server can do

The ways a step of the accept loop, of the pool and of the two release functions goes.
-/

namespace LocalMarks.Server.Jobs
open LocalMarks.Lib LocalMarks.Pool
open LocalMarks.Limiter (RateLimit AcceptEnv ratelimitAccept ratelimitLeave freshLimiter)

/-- How the accept loop moves between the connections. -/
inductive MainStep (cap : ℕ) (s : ServerState) : ServerState → Prop where
  | idle (pc : MainPc) (hs : s.main = .testing ∨ s.main = .accepting ∨ s.main = .closing)
      (hpc : pc = .testing ∨ pc = .accepting ∨ pc = .closing ∨ pc = .destroying) :
      MainStep cap s (s.goto pc)
  | accepted (hs : s.main = .accepting) :
      MainStep cap s ({ s with conns := s.conns + 1 }.goto (.accepted s.conns))
  | carryOn (c : ℕ) (pc : MainPc)
      (hs : s.main = .accepted c ∧ pc = .wrapping c ∨ s.main = .wrapping c ∧ pc = .handshaking c ∨
        s.main = .handshaking c ∧ pc = .allocating c) :
      MainStep cap s (s.goto pc)
  | giveUp (c : ℕ) (pc : MainPc)
      (hs : s.main = .accepted c ∨ s.main = .wrapping c ∨ s.main = .handshaking c ∨
        s.main = .allocating c)
      (hpc : pc = .testing ∨ pc = .closing) :
      MainStep cap s ((s.log .acceptLoop .close c).goto pc)
  | allocate (c : ℕ) (ip : CString) (hs : s.main = .allocating c) :
      MainStep cap s ({ s with ip := Function.update s.ip c ip }.goto (.limiting c))
  | takeIn (c : ℕ) (env : AcceptEnv) (hs : s.main = .limiting c)
      (hr : (ratelimitAccept s.limiter (s.ip c) env).1 = 0) :
      MainStep cap s ({ s with
        limiter := (ratelimitAccept s.limiter (s.ip c) env).2
        admitted := s.admitted ++ [c] }.goto (.submitting c))
  | reject (c : ℕ) (env : AcceptEnv) (hs : s.main = .limiting c)
      (hr : (ratelimitAccept s.limiter (s.ip c) env).1 ≠ 0) :
      MainStep cap s
        ({ s with limiter := (ratelimitAccept s.limiter (s.ip c) env).2 }.goto (.rejecting c))
  | close (c : ℕ) (hs : s.main = .rejecting c) :
      MainStep cap s ((s.log .acceptLoop .close c).goto (.freeing c))
  | free (c : ℕ) (hs : s.main = .freeing c) :
      MainStep cap s ((s.log .acceptLoop .free c).goto .testing)
  | submit (c : ℕ) (pool : ThreadPool) (hs : s.main = .submitting c)
      (h : exec cap s.pool (.call 0 (clientTask c)) = some pool) :
      MainStep cap s ({ s with pool := pool }.goto .inSubmit)
  | submitted (hs : s.main = .inSubmit) (hp : s.pool.producer 0 = .idle) :
      MainStep cap s (s.goto .testing)
  | finish (hs : s.main = .destroying) (hd : s.pool.destroyer = .destroyed) :
      MainStep cap s (s.goto .finished)

theorem mainStep_step {cap : ℕ} {env : Env} {s s' : ServerState}
    (h : mainStep cap env s = some s') : MainStep cap s s' := by
  cases hm : s.main with
  | testing =>
    simp only [mainStep, hm, Option.some.injEq] at h
    subst h
    exact .idle _ (.inl hm) (by split <;> simp)
  | accepting =>
    simp only [mainStep, hm] at h
    split at h
    · exact Option.some.inj h ▸ .accepted hm
    · split at h
      · exact Option.some.inj h ▸ .idle _ (.inr (.inl hm)) (.inl rfl)
      · exact Option.some.inj h ▸ .idle _ (.inr (.inl hm)) (by split <;> simp)
  | accepted c =>
    simp only [mainStep, hm] at h
    split at h
    · exact Option.some.inj h ▸ .giveUp c _ (.inl hm) (.inr rfl)
    · exact Option.some.inj h ▸ .carryOn c _ (.inl ⟨hm, rfl⟩)
  | wrapping c =>
    simp only [mainStep, hm] at h
    split at h
    · exact Option.some.inj h ▸ .carryOn c _ (.inr (.inl ⟨hm, rfl⟩))
    · exact Option.some.inj h ▸ .giveUp c _ (.inr (.inl hm)) (.inl rfl)
  | handshaking c =>
    simp only [mainStep, hm] at h
    split at h
    · exact Option.some.inj h ▸ .carryOn c _ (.inr (.inr ⟨hm, rfl⟩))
    · exact Option.some.inj h ▸ .giveUp c _ (.inr (.inr (.inl hm))) (.inl rfl)
  | allocating c =>
    simp only [mainStep, hm] at h
    split at h
    · exact Option.some.inj h ▸ .allocate c env.ip hm
    · exact Option.some.inj h ▸ .giveUp c _ (.inr (.inr (.inr hm))) (.inl rfl)
  | limiting c =>
    simp only [mainStep, hm] at h
    split at h
    · rename_i hr
      exact Option.some.inj h ▸ .takeIn c env.limit hm hr
    · rename_i hr
      exact Option.some.inj h ▸ .reject c env.limit hm hr
  | rejecting c =>
    simp only [mainStep, hm] at h
    exact Option.some.inj h ▸ .close c hm
  | freeing c =>
    simp only [mainStep, hm] at h
    exact Option.some.inj h ▸ .free c hm
  | submitting c =>
    simp only [mainStep, hm, Option.map_eq_some_iff] at h
    obtain ⟨pool, hpool, rfl⟩ := h
    exact .submit c pool hm hpool
  | inSubmit =>
    simp only [mainStep, hm, Option.ite_none_right_eq_some, Option.some.injEq] at h
    exact h.2 ▸ .submitted hm h.1
  | closing =>
    simp only [mainStep, hm, Option.some.injEq] at h
    exact h ▸ .idle _ (.inr (.inr hm)) (by simp)
  | destroying =>
    simp only [mainStep, hm, Option.ite_none_right_eq_some, Option.some.injEq] at h
    exact h.2 ▸ .finish hm h.1
  | finished => simp only [mainStep, hm, reduceCtorEq] at h

/-- How a step inside the pool goes, with the frame of the function a task runs or is dropped
with. -/
inductive PoolStep (cap : ℕ) (s : ServerState) : ServerState → Prop where
  | drop (x : Submission) (hs : s.main = .inSubmit) (hpc : s.pool.producer 0 = .dropping x)
      (hd : x.task.droppable = true) :
      PoolStep cap s { s with
        pool := { s.pool with
          discarded := s.pool.discarded ++ [x]
          dropCalls := s.pool.dropCalls ++ [x] }.atProducer 0 (.inDrop x)
        dropFrame := .releasing .leave (jobOf x) }
  | forget (x : Submission) (hs : s.main = .inSubmit) (hpc : s.pool.producer 0 = .dropping x)
      (hd : x.task.droppable = false) (s' : ServerState) : PoolStep cap s s'
  | dropped (x : Submission) (hs : s.main = .inSubmit) (hpc : s.pool.producer 0 = .inDrop x)
      (hf : s.dropFrame = .returned) :
      PoolStep cap s { s with pool := s.pool.atProducer 0 .idle, dropFrame := .none }
  | submit (pool : ThreadPool) (hs : s.main = .inSubmit) (h : SubmitStep cap 0 s.pool pool)
      (hdrop : ∀ x, s.pool.producer 0 ≠ .dropping x) (hin : ∀ x, s.pool.producer 0 ≠ .inDrop x) :
      PoolStep cap s { s with pool := pool }
  | call (i : ℕ) (x : Submission) (hpc : s.pool.worker i = .calling x) :
      PoolStep cap s ({ s with
        pool := { s.pool with ran := s.pool.ran ++ [x] }.atWorker i (.running x) }.atHandler i
          (.serving (jobOf x)))
  | done (i : ℕ) (x : Submission) (hpc : s.pool.worker i = .running x)
      (hf : s.handlers i = .returned) :
      PoolStep cap s ({ s with pool := s.pool.atWorker i .locking }.atHandler i .none)
  | work (i : ℕ) (pool : ThreadPool) (h : WorkerStep cap i s.pool pool)
      (hcall : ∀ x, s.pool.worker i ≠ .calling x) (hrun : ∀ x, s.pool.worker i ≠ .running x) :
      PoolStep cap s { s with pool := pool }
  | destroy (pool : ThreadPool) (hs : s.main = .destroying) (h : DestroyStep s.pool pool) :
      PoolStep cap s { s with pool := pool }
  | spurious (notEmpty notFull : Finset ℕ) :
      PoolStep cap s { s with pool := { s.pool with notEmpty := notEmpty, notFull := notFull } }

theorem submit_step {cap : ℕ} {wakes : Option ℕ} {s s' : ServerState}
    (h : poolStep cap (.submit 0 wakes) s = some s') : PoolStep cap s s' := by
  simp only [poolStep, true_and, Option.ite_none_right_eq_some] at h
  obtain ⟨hs, h⟩ := h
  cases hpc : s.pool.producer 0 with
  | dropping x =>
    simp only [hpc, Option.map_eq_some_iff, exec] at h
    obtain ⟨_, ⟨pool, hpool, rfl⟩, rfl⟩ := h
    cases threadPoolSubmit_step hpool with
    | drop y hy hd =>
      cases hpc.symm.trans hy
      exact .drop x hs hpc hd
    | forget y hy hd =>
      cases hpc.symm.trans hy
      exact .forget x hs hpc hd _
    | lock _ hy | full _ hy | ready _ hy | sleep _ hy | wake _ hy | stopped _ hy
    | accepted _ hy | store _ hy | signal _ hy | unlock hy | refuse _ hy | dropped _ hy =>
      cases hpc.symm.trans hy
  | inDrop x =>
    simp only [hpc, Option.ite_none_right_eq_some, Option.map_eq_some_iff, exec] at h
    obtain ⟨hf, _, ⟨pool, hpool, rfl⟩, rfl⟩ := h
    cases threadPoolSubmit_step hpool with
    | dropped y hy => exact .dropped x hs hpc hf
    | lock _ hy | full _ hy | ready _ hy | sleep _ hy | wake _ hy | stopped _ hy
    | accepted _ hy | store _ hy | signal _ hy | unlock hy | refuse _ hy | drop _ hy
    | forget _ hy =>
      cases hpc.symm.trans hy
  | _ =>
    simp only [hpc, Option.map_eq_some_iff, exec] at h
    obtain ⟨pool, hpool, rfl⟩ := h
    exact .submit pool hs (threadPoolSubmit_step hpool) (by simp [hpc]) (by simp [hpc])

theorem work_step {cap i : ℕ} {wakes : Option ℕ} {s s' : ServerState}
    (h : poolStep cap (.work i wakes) s = some s') : PoolStep cap s s' := by
  cases hpc : s.pool.worker i with
  | calling x =>
    simp only [poolStep, hpc, Option.map_eq_some_iff, exec, Option.ite_none_right_eq_some] at h
    obtain ⟨_, ⟨pool, ⟨hi, hpool⟩, rfl⟩, rfl⟩ := h
    simp only [workerLoop, hpc, Option.some.injEq] at hpool
    subst hpool
    exact .call i x hpc
  | running x =>
    simp only [poolStep, hpc, Option.map_eq_some_iff, exec, Option.ite_none_right_eq_some] at h
    obtain ⟨hf, _, ⟨pool, ⟨hi, hpool⟩, rfl⟩, rfl⟩ := h
    simp only [workerLoop, hpc, Option.some.injEq] at hpool
    subst hpool
    exact .done i x hpc hf
  | _ =>
    simp only [poolStep, hpc, Option.map_eq_some_iff, exec, Option.ite_none_right_eq_some] at h
    obtain ⟨pool, ⟨hi, hpool⟩, rfl⟩ := h
    exact .work i pool (workerLoop_step hpool) (by simp [hpc]) (by simp [hpc])

theorem poolStep_step {cap : ℕ} {l : Label} {s s' : ServerState}
    (h : poolStep cap l s = some s') : PoolStep cap s s' := by
  cases l with
  | call p task => simp only [poolStep, reduceCtorEq] at h
  | submit p wakes =>
    by_cases hp : p = 0
    · subst hp
      exact submit_step h
    · simp only [poolStep, hp, false_and, ite_false, reduceCtorEq] at h
  | work i wakes => exact work_step h
  | destroy =>
    simp only [poolStep, Option.ite_none_right_eq_some, Option.map_eq_some_iff, exec] at h
    obtain ⟨hs, pool, hpool, rfl⟩ := h
    exact .destroy pool hs (threadPoolDestroy_step hpool)
  | spuriousWorker i =>
    simp only [poolStep, Option.map_eq_some_iff, exec, Option.ite_none_right_eq_some,
      Option.some.injEq] at h
    obtain ⟨pool, ⟨-, rfl⟩, rfl⟩ := h
    exact .spurious _ s.pool.notFull
  | spuriousProducer p =>
    simp only [poolStep, Option.map_eq_some_iff, exec, Option.ite_none_right_eq_some,
      Option.some.injEq] at h
    obtain ⟨pool, ⟨-, rfl⟩, rfl⟩ := h
    exact .spurious s.pool.notEmpty _

inductive ServerStep (cap : ℕ) (s : ServerState) : ServerState → Prop where
  | signal : ServerStep cap s { s with shutdown := true }
  | main {s' : ServerState} (h : MainStep cap s s') : ServerStep cap s s'
  | pool {s' : ServerState} (h : PoolStep cap s s') : ServerStep cap s s'
  | served (i job : ℕ) (hf : s.handlers i = .serving job) :
      ServerStep cap s (s.atHandler i (.releasing .leave job))
  | handle (i : ℕ) (stage : Stage) (job : ℕ) (now : ℤ)
      (hf : s.handlers i = .releasing stage job) :
      ServerStep cap s ((s.release .handler stage job now).atHandler i (.after job stage))
  | drop (stage : Stage) (job : ℕ) (now : ℤ) (hf : s.dropFrame = .releasing stage job) :
      ServerStep cap s { s.release .dropper stage job now with dropFrame := .after job stage }

theorem handlerExec_cases {cap i : ℕ} {now : ℤ} {s s' : ServerState}
    (h : serverExec cap s (.handler i now) = some s') :
    (∃ job, s.handlers i = .serving job ∧ s' = s.atHandler i (.releasing .leave job)) ∨
      ∃ stage job, s.handlers i = .releasing stage job ∧
        s' = (s.release .handler stage job now).atHandler i (.after job stage) := by
  simp only [serverExec] at h
  cases hf : s.handlers i with
  | none | returned => simp only [handlerStep, hf, reduceCtorEq] at h
  | serving job =>
    simp only [handlerStep, hf, Option.some.injEq] at h
    exact .inl ⟨job, rfl, h.symm⟩
  | releasing stage job =>
    simp only [handlerStep, hf, Option.some.injEq] at h
    exact .inr ⟨stage, job, rfl, h.symm⟩

theorem dropperExec_cases {cap : ℕ} {now : ℤ} {s s' : ServerState}
    (h : serverExec cap s (.dropper now) = some s') :
    ∃ stage job, s.dropFrame = .releasing stage job ∧
      s' = { s.release .dropper stage job now with dropFrame := .after job stage } := by
  simp only [serverExec] at h
  cases hf : s.dropFrame with
  | none | serving _ | returned => simp only [dropperStep, hf, reduceCtorEq] at h
  | releasing stage job =>
    simp only [dropperStep, hf, Option.some.injEq] at h
    exact ⟨stage, job, rfl, h.symm⟩

theorem serverExec_step {cap : ℕ} {l : ServerLabel} {s s' : ServerState}
    (h : serverExec cap s l = some s') : ServerStep cap s s' := by
  cases l with
  | signal => exact Option.some.inj h ▸ .signal
  | main env => exact .main (mainStep_step h)
  | pool l => exact .pool (poolStep_step h)
  | handler i now =>
    rcases handlerExec_cases h with ⟨job, hf, rfl⟩ | ⟨stage, job, hf, rfl⟩
    · exact .served i job hf
    · exact .handle i stage job now hf
  | dropper now =>
    obtain ⟨stage, job, hf, rfl⟩ := dropperExec_cases h
    exact .drop stage job now hf

/-! ### The pool inside the server -/

@[simp] theorem release_pool (s : ServerState) (who : Releaser) (stage : Stage) (job : ℕ)
    (now : ℤ) : (s.release who stage job now).pool = s.pool := by cases stage <;> rfl

@[simp] theorem release_handlers (s : ServerState) (who : Releaser) (stage : Stage) (job : ℕ)
    (now : ℤ) : (s.release who stage job now).handlers = s.handlers := by cases stage <;> rfl

@[simp] theorem release_dropFrame (s : ServerState) (who : Releaser) (stage : Stage) (job : ℕ)
    (now : ℤ) : (s.release who stage job now).dropFrame = s.dropFrame := by cases stage <;> rfl

@[simp] theorem release_main (s : ServerState) (who : Releaser) (stage : Stage) (job : ℕ)
    (now : ℤ) : (s.release who stage job now).main = s.main := by cases stage <;> rfl

@[simp] theorem release_admitted (s : ServerState) (who : Releaser) (stage : Stage) (job : ℕ)
    (now : ℤ) : (s.release who stage job now).admitted = s.admitted := by cases stage <;> rfl

@[simp] theorem release_ip (s : ServerState) (who : Releaser) (stage : Stage) (job : ℕ)
    (now : ℤ) : (s.release who stage job now).ip = s.ip := by cases stage <;> rfl

theorem release_done (s : ServerState) (who w : Releaser) (stage st : Stage) (job : ℕ)
    (now : ℤ) : (s.release who stage job now).done w st =
      if w = who ∧ st = stage then s.done w st ++ [job] else s.done w st := by cases stage <;> rfl

theorem poolStep_exec {cap : ℕ} {l : Label} {s s' : ServerState}
    (h : poolStep cap l s = some s') : exec cap s.pool l = some s'.pool := by
  have hmove : ∀ {t : ServerState}, (exec cap s.pool l).map (fun pool => { s with pool := pool }) =
      some t → exec cap s.pool l = some t.pool := by
    intro t ht
    obtain ⟨pool, hpool, rfl⟩ := Option.map_eq_some_iff.mp ht
    exact hpool
  have hmap : ∀ {f : ServerState → ServerState} {t : ServerState},
      ((exec cap s.pool l).map (fun pool => { s with pool := pool })).map f = some t →
        (∀ u, (f u).pool = u.pool) → exec cap s.pool l = some t.pool := by
    intro f t ht hf
    obtain ⟨u, hu, rfl⟩ := Option.map_eq_some_iff.mp ht
    rw [hf u]
    exact hmove hu
  cases l with
  | call p task => simp only [poolStep, reduceCtorEq] at h
  | submit p wakes =>
    simp only [poolStep, Option.ite_none_right_eq_some] at h
    obtain ⟨-, h⟩ := h
    split at h
    · exact hmap h fun _ => rfl
    · exact hmap (Option.ite_none_right_eq_some.mp h).2 fun _ => rfl
    · exact hmove h
  | work i wakes =>
    simp only [poolStep] at h
    split at h
    · exact hmap h fun _ => rfl
    · exact hmap (Option.ite_none_right_eq_some.mp h).2 fun _ => rfl
    · exact hmove h
  | destroy => exact hmove (Option.ite_none_right_eq_some.mp h).2
  | spuriousWorker i => exact hmove h
  | spuriousProducer p => exact hmove h

theorem mainStep_exec {cap : ℕ} {s s' : ServerState} (h : MainStep cap s s') :
    s'.pool = s.pool ∨ ∃ l, exec cap s.pool l = some s'.pool := by
  cases h with
  | submit c pool hs hpool => exact .inr ⟨_, hpool⟩
  | _ => exact .inl rfl

theorem serverExec_exec {cap : ℕ} {l : ServerLabel} {s s' : ServerState}
    (h : serverExec cap s l = some s') :
    s'.pool = s.pool ∨ ∃ pl, exec cap s.pool pl = some s'.pool := by
  cases l with
  | main env => exact mainStep_exec (mainStep_step h)
  | pool pl => exact .inr ⟨pl, poolStep_exec h⟩
  | signal => exact .inl (by rw [← Option.some.inj h])
  | handler i now =>
    rcases handlerExec_cases h with ⟨job, -, rfl⟩ | ⟨stage, job, -, rfl⟩
    · exact .inl rfl
    · exact .inl (release_pool s .handler stage job now)
  | dropper now =>
    obtain ⟨stage, job, -, rfl⟩ := dropperExec_cases h
    exact .inl (release_pool s .dropper stage job now)

end LocalMarks.Server.Jobs
