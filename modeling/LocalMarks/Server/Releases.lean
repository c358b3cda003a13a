import LocalMarks.Server.JobSteps

/-!
# Every admitted job is released once

Seen from its jobs the server is a dispatcher again: a job is with the accept loop, in the
queue, or with a worker, until one of the two release functions makes its call for it. That
holds of each of the three calls, so the same law serves for all.
-/

namespace LocalMarks.Server.Jobs
open LocalMarks.Lib LocalMarks.Pool
open LocalMarks.Limiter (RateLimit AcceptEnv ratelimitAccept ratelimitLeave freshLimiter)

variable {cap n : ℕ} {maxConns : ℤ} {s s' : ServerState}

/-! ### The frames and the pool -/

/-- Functions run while the pool says so, and all tasks are `handle_client` with its job. -/
structure Synced (s : ServerState) : Prop where
  handlers : ∀ i, s.handlers i ≠ .none → ∃ x, s.pool.worker i = .running x
  dropFrame : s.dropFrame ≠ .none → ∃ x, s.pool.producer 0 = .inDrop x
  outside : s.main ≠ .inSubmit → s.pool.producer 0 = .idle
  tasks : ∀ x ∈ s.pool.submitted, x.task = clientTask (jobOf x)
  finished : s.main = .finished → s.pool.destroyer = .destroyed

theorem Synced.noDrop (h : Synced s) (hp : ∀ x, s.pool.producer 0 ≠ .inDrop x) :
    s.dropFrame = .none := by
  by_contra hne
  obtain ⟨x, hx⟩ := h.dropFrame hne
  exact hp x hx

theorem Synced.noHandler (h : Synced s) {i : ℕ} (hw : ∀ x, s.pool.worker i ≠ .running x) :
    s.handlers i = .none := by
  by_contra hne
  obtain ⟨x, hx⟩ := h.handlers i hne
  exact hw x hx

theorem Synced.inSubmit (h : Synced s) (hf : s.dropFrame ≠ .none) : s.main = .inSubmit := by
  obtain ⟨x, hx⟩ := h.dropFrame hf
  by_contra hne
  rw [h.outside hne] at hx
  cases hx

theorem Synced.droppable (h : Synced s)
    (hx : ∀ x, (s.pool.producer 0).task = some x → x ∈ s.pool.submitted) {x : Submission}
    (hpc : s.pool.producer 0 = .dropping x) : x.task.droppable = true := by
  rw [h.tasks x (hx x (by rw [hpc]; rfl))]
  rfl

theorem Synced.quiet (h : Synced s) (hpool : s'.pool = s.pool)
    (hh : s'.handlers = s.handlers) (hd : s'.dropFrame = s.dropFrame)
    (hout : s'.main ≠ .inSubmit → s.pool.producer 0 = .idle)
    (hfin : s'.main = .finished → s.pool.destroyer = .destroyed) : Synced s' where
  handlers := by
    rw [hpool, hh]
    exact h.handlers
  dropFrame := by
    rw [hpool, hd]
    exact h.dropFrame
  outside := by
    rw [hpool]
    exact hout
  tasks := by
    rw [hpool]
    exact h.tasks
  finished := by
    rw [hpool]
    exact hfin

theorem mainStep_synced (hst : MainStep cap s s') (h : Synced s) : Synced s' := by
  cases hst with
  | idle pc hs hpc =>
    have hout : s.pool.producer 0 = .idle :=
      h.outside (by rcases hs with hs | hs | hs <;> simp [hs])
    refine h.quiet rfl rfl rfl (fun _ => hout) fun hf => ?_
    rcases hpc with rfl | rfl | rfl | rfl <;> cases hf
  | carryOn c pc hs =>
    have hout : s.pool.producer 0 = .idle :=
      h.outside (by rcases hs with hs | hs | hs <;> simp [hs.1])
    refine h.quiet rfl rfl rfl (fun _ => hout) fun hf => ?_
    rcases hs with ⟨-, rfl⟩ | ⟨-, rfl⟩ | ⟨-, rfl⟩ <;> cases hf
  | giveUp c pc hs hpc =>
    have hout : s.pool.producer 0 = .idle :=
      h.outside (by rcases hs with hs | hs | hs | hs <;> simp [hs])
    refine h.quiet rfl rfl rfl (fun _ => hout) fun hf => ?_
    rcases hpc with rfl | rfl <;> cases hf
  | accepted hs | allocate _ _ hs | takeIn _ _ hs | reject _ _ hs | close _ hs | free _ hs =>
    exact h.quiet rfl rfl rfl (fun _ => h.outside (by simp [hs])) (fun hf => by cases hf)
  | submitted hs hp => exact h.quiet rfl rfl rfl (fun _ => hp) (fun hf => by cases hf)
  | finish hs hd => exact h.quiet rfl rfl rfl (fun _ => h.outside (by simp [hs])) fun _ => hd
  | submit c pool hs hcall =>
    have hidle : s.pool.producer 0 = .idle := h.outside (by simp [hs])
    have hnone : s.dropFrame = .none := h.noDrop (by simp [hidle])
    cases exec_step hcall with
    | call p task hpc =>
      refine ⟨h.handlers, fun hne => absurd hnone hne, fun hne => absurd rfl hne,
        fun x hx => ?_, fun hf => by cases hf⟩
      rcases List.mem_append.mp hx with hx | hx
      · exact h.tasks x hx
      · rw [List.mem_singleton] at hx
        subst hx
        rfl

theorem submitStep_frame {p : ℕ} {pool pool' : ThreadPool} (h : SubmitStep cap p pool pool') :
    pool'.worker = pool.worker ∧ pool'.submitted = pool.submitted ∧
      pool'.destroyer = pool.destroyer := by
  cases h <;> exact ⟨rfl, rfl, rfl⟩

theorem workerStep_frame {i : ℕ} {pool pool' : ThreadPool} (h : WorkerStep cap i pool pool') :
    pool'.producer = pool.producer ∧ pool'.submitted = pool.submitted ∧
      pool'.destroyer = pool.destroyer ∧ ∀ j, j ≠ i → pool'.worker j = pool.worker j := by
  cases h <;> exact ⟨rfl, rfl, rfl, fun j hj => Function.update_of_ne hj _ _⟩

theorem destroyStep_frame {pool pool' : ThreadPool} (h : DestroyStep pool pool') :
    pool'.producer = pool.producer ∧ pool'.submitted = pool.submitted ∧
      pool'.worker = pool.worker := by
  cases h <;> exact ⟨rfl, rfl, rfl⟩

theorem poolStep_synced (hst : PoolStep cap s s') (h : Synced s)
    (hx : ∀ x, (s.pool.producer 0).task = some x → x ∈ s.pool.submitted) : Synced s' := by
  cases hst with
  | drop x hs hpc hd =>
    refine ⟨h.handlers, fun _ => ⟨x, Function.update_self 0 _ s.pool.producer⟩,
      fun hne => absurd hs hne, h.tasks, fun hf => ?_⟩
    rw [hs] at hf
    cases hf
  | forget x hs hpc hd =>
    rw [h.droppable hx hpc] at hd
    cases hd
  | dropped x hs hpc hf =>
    refine ⟨h.handlers, fun hne => absurd rfl hne, fun hne => absurd hs hne, h.tasks,
      fun hfin => ?_⟩
    rw [hs] at hfin
    cases hfin
  | submit pool hs hsub hdrop hin =>
    obtain ⟨hw, hsubm, hd⟩ := submitStep_frame hsub
    have hnone := h.noDrop hin
    refine ⟨fun i hi => ?_, fun hne => absurd hnone hne, fun hne => absurd hs hne, ?_, fun hf => ?_⟩
    · rw [hw]
      exact h.handlers i hi
    · rw [hsubm]
      exact h.tasks
    · rw [hs] at hf
      cases hf
  | call i x hpc =>
    refine ⟨fun j hj => ?_, h.dropFrame, h.outside, h.tasks, h.finished⟩
    by_cases hji : j = i
    · subst hji
      exact ⟨x, Function.update_self ..⟩
    · simp only [ServerState.atHandler, ThreadPool.atWorker, Function.update_of_ne hji] at hj ⊢
      exact h.handlers j hj
  | done i x hpc hf =>
    refine ⟨fun j hj => ?_, h.dropFrame, h.outside, h.tasks, h.finished⟩
    by_cases hji : j = i
    · subst hji
      simp [ServerState.atHandler] at hj
    · simp only [ServerState.atHandler, ThreadPool.atWorker, Function.update_of_ne hji] at hj ⊢
      exact h.handlers j hj
  | work i pool hw hcall hrun =>
    obtain ⟨hp, hsubm, hd, hother⟩ := workerStep_frame hw
    have hnone := h.noHandler hrun
    refine ⟨fun j hj => ?_, ?_, ?_, ?_, ?_⟩
    · by_cases hji : j = i
      · subst hji
        exact absurd hnone hj
      · rw [hother j hji]
        exact h.handlers j hj
    · rw [hp]
      exact h.dropFrame
    · rw [hp]
      exact h.outside
    · rw [hsubm]
      exact h.tasks
    · rw [hd]
      exact h.finished
  | destroy pool hs hd =>
    obtain ⟨hp, hsubm, hw⟩ := destroyStep_frame hd
    refine ⟨?_, ?_, ?_, ?_, fun hf => ?_⟩
    · rw [hw]
      exact h.handlers
    · rw [hp]
      exact h.dropFrame
    · rw [hp]
      exact h.outside
    · rw [hsubm]
      exact h.tasks
    · rw [hs] at hf
      cases hf
  | spurious _ _ => exact ⟨h.handlers, h.dropFrame, h.outside, h.tasks, h.finished⟩

theorem Synced.step_handler (h : Synced s) {i : ℕ} {f : Frame} (hf : s.handlers i ≠ .none)
    (hh : s'.handlers = Function.update s.handlers i f) (hpool : s'.pool = s.pool)
    (hd : s'.dropFrame = s.dropFrame) (hm : s'.main = s.main) : Synced s' := by
  refine ⟨fun j hj => ?_, ?_, ?_, ?_, ?_⟩
  · rw [hpool]
    by_cases hji : j = i
    · rw [hji]
      exact h.handlers i hf
    · rw [hh, Function.update_of_ne hji] at hj
      exact h.handlers j hj
  · rw [hpool, hd]
    exact h.dropFrame
  · rw [hpool, hm]
    exact h.outside
  · rw [hpool]
    exact h.tasks
  · rw [hpool, hm]
    exact h.finished

theorem serverStep_synced (hst : ServerStep cap s s') (h : Synced s)
    (hx : ∀ x, (s.pool.producer 0).task = some x → x ∈ s.pool.submitted) : Synced s' := by
  cases hst with
  | signal => exact ⟨h.handlers, h.dropFrame, h.outside, h.tasks, h.finished⟩
  | main hm => exact mainStep_synced hm h
  | pool hp => exact poolStep_synced hp h hx
  | served i job hf => exact h.step_handler (by simp [hf]) rfl rfl rfl rfl
  | handle i stage job now hf =>
    exact h.step_handler (i := i) (f := .after job stage) (by simp [hf])
      (by simp [ServerState.atHandler]) (by simp [ServerState.atHandler])
      (by simp [ServerState.atHandler]) (by simp [ServerState.atHandler])
  | drop stage job now hf =>
    have hin := h.dropFrame (by simp [hf])
    refine ⟨?_, fun _ => ?_, ?_, ?_, ?_⟩ <;> simp only [release_pool, release_handlers,
      release_main]
    · exact h.handlers
    · exact hin
    · exact h.outside
    · exact h.tasks
    · exact h.finished

/-! ### The connections -/

/-- The connection the accept loop has in hand and has neither closed nor admitted. -/
def MainPc.fresh : MainPc → Option ℕ
  | .accepted c | .wrapping c | .handshaking c | .allocating c | .limiting c | .rejecting c =>
    some c
  | _ => none

/-- An admitted job is none the accept loop has closed or will close. -/
structure ConnInv (s : ServerState) : Prop where
  admitted : ∀ j ∈ s.admitted, j < s.conns
  nodup : s.admitted.Nodup
  closed : ∀ st, ∀ j ∈ s.done .acceptLoop st, j < s.conns ∧ j ∉ s.admitted
  fresh : ∀ c, s.main.fresh = some c →
    c < s.conns ∧ c ∉ s.admitted ∧ ∀ st, c ∉ s.done .acceptLoop st
  freeing : ∀ c, s.main = .freeing c → c < s.conns ∧ c ∉ s.admitted

theorem log_done (s : ServerState) (who w : Releaser) (stage st : Stage) (job : ℕ) :
    (s.log who stage job).done w st =
      if w = who ∧ st = stage then s.done w st ++ [job] else s.done w st := rfl

theorem ConnInv.letGo (h : ConnInv s) {c : ℕ} (stage : Stage) {pc : MainPc}
    (hc : c < s.conns ∧ c ∉ s.admitted) (hpc : pc.fresh = none)
    (hfree : ∀ d, pc = .freeing d → d = c) : ConnInv ((s.log .acceptLoop stage c).goto pc) where
  admitted := h.admitted
  nodup := h.nodup
  closed := by
    intro st j hj
    have hmem : j ∈ s.done .acceptLoop st ∨ j = c := by
      simp only [ServerState.goto, log_done] at hj
      split at hj
      · simpa using hj
      · exact .inl hj
    rcases hmem with hj | rfl
    · exact h.closed st j hj
    · exact hc
  fresh := by
    intro d hd
    simp only [ServerState.goto] at hd
    rw [hpc] at hd
    cases hd
  freeing := by
    intro d hd
    rw [hfree d hd]
    exact hc

theorem ConnInv.goOn (h : ConnInv s) (hc : s'.conns = s.conns) (ha : s'.admitted = s.admitted)
    (hd : s'.done .acceptLoop = s.done .acceptLoop)
    (hfresh : s'.main.fresh = s.main.fresh ∨ s'.main.fresh = none)
    (hfree : ∀ c, s'.main = .freeing c → s.main = .freeing c) : ConnInv s' := by
  refine ⟨?_, ?_, ?_, fun c hm => ?_, fun c hm => ?_⟩
  · rw [hc, ha]
    exact h.admitted
  · rw [ha]
    exact h.nodup
  · rw [hc, ha, hd]
    exact h.closed
  · rw [hc, ha, hd]
    rcases hfresh with hsame | hnone
    · exact h.fresh c (hsame ▸ hm)
    · rw [hnone] at hm
      cases hm
  · rw [hc, ha]
    exact h.freeing c (hfree c hm)

theorem mainStep_conn (hst : MainStep cap s s') (h : ConnInv s) : ConnInv s' := by
  cases hst with
  | idle pc hs hpc =>
    refine h.goOn rfl rfl rfl (.inr ?_) fun c hc => ?_
    · rcases hpc with rfl | rfl | rfl | rfl <;> rfl
    · rcases hpc with rfl | rfl | rfl | rfl <;> cases hc
  | accepted hs =>
    refine ⟨fun j hj => Nat.lt_succ_of_lt (h.admitted j hj), h.nodup,
      fun st j hj => ⟨Nat.lt_succ_of_lt (h.closed st j hj).1, (h.closed st j hj).2⟩,
      fun c hc => ?_, fun c hc => by cases hc⟩
    cases hc
    exact ⟨Nat.lt_succ_self _, fun hj => lt_irrefl _ (h.admitted _ hj),
      fun st hj => lt_irrefl _ (h.closed st _ hj).1⟩
  | carryOn c pc hs =>
    refine h.goOn rfl rfl rfl (.inl ?_) fun d hd => ?_
    · rcases hs with ⟨hm, rfl⟩ | ⟨hm, rfl⟩ | ⟨hm, rfl⟩ <;> rw [hm] <;> rfl
    · rcases hs with ⟨hm, rfl⟩ | ⟨hm, rfl⟩ | ⟨hm, rfl⟩ <;> cases hd
  | giveUp c pc hs hpc =>
    have hc := h.fresh c (by rcases hs with hs | hs | hs | hs <;> rw [hs] <;> rfl)
    refine h.letGo .close ⟨hc.1, hc.2.1⟩ ?_ fun d hd => ?_
    · rcases hpc with rfl | rfl <;> rfl
    · rcases hpc with rfl | rfl <;> cases hd
  | allocate c ip hs | reject c env hs hr =>
    refine h.goOn rfl rfl rfl (.inl ?_) fun d hd => by cases hd
    rw [hs]
    rfl
  | takeIn c env hs hr =>
    obtain ⟨hlt, hnot, hopen⟩ := h.fresh c (by rw [hs]; rfl)
    refine ⟨fun j hj => ?_, ?_, fun st j hj => ⟨(h.closed st j hj).1, fun hmem => ?_⟩,
      (fun d hd => by cases hd), (fun d hd => by cases hd)⟩
    · rcases List.mem_append.mp hj with hj | hj
      · exact h.admitted j hj
      · rw [List.mem_singleton.mp hj]
        exact hlt
    · exact List.nodup_append.mpr ⟨h.nodup, List.nodup_singleton c, fun a ha b hb hab =>
        hnot (by rw [← List.mem_singleton.mp hb, ← hab]; exact ha)⟩
    · rcases List.mem_append.mp hmem with hmem | hmem
      · exact (h.closed st j hj).2 hmem
      · rw [List.mem_singleton] at hmem
        exact hopen st (hmem ▸ hj)
  | close c hs =>
    have hc := h.fresh c (by rw [hs]; rfl)
    exact h.letGo .close ⟨hc.1, hc.2.1⟩ rfl fun d hd => by cases hd; rfl
  | free c hs => exact h.letGo .free (h.freeing c hs) rfl fun d hd => by cases hd
  | submit c pool hs hcall => exact h.goOn rfl rfl rfl (.inr rfl) fun d hd => by cases hd
  | submitted hs hp => exact h.goOn rfl rfl rfl (.inr rfl) fun d hd => by cases hd
  | finish hs hd => exact h.goOn rfl rfl rfl (.inr rfl) fun d hd => by cases hd

theorem serverStep_conn (hst : ServerStep cap s s') (hsync : Synced s)
    (hx : ∀ x, (s.pool.producer 0).task = some x → x ∈ s.pool.submitted) (h : ConnInv s) :
    ConnInv s' := by
  cases hst with
  | signal => exact h.goOn rfl rfl rfl (.inl rfl) fun _ hc => hc
  | main hm => exact mainStep_conn hm h
  | pool hp =>
    cases hp with
    | forget x hs hpc hd =>
      rw [hsync.droppable hx hpc] at hd
      cases hd
    | _ => exact h.goOn rfl rfl rfl (.inl rfl) fun _ hc => hc
  | served i job hf => exact h.goOn rfl rfl rfl (.inl rfl) fun _ hc => hc
  | handle i stage job now hf =>
    cases stage <;> exact h.goOn rfl rfl rfl (.inl rfl) fun _ hc => hc
  | drop stage job now hf =>
    cases stage <;> exact h.goOn rfl rfl rfl (.inl rfl) fun _ hc => hc

end LocalMarks.Server.Jobs
