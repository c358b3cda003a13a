import LocalMarks.Server.JobAccounts

/-!
# Admitted and released

What the simulation gives for whole runs: the three release calls are made once for a job, by
one of the two functions; the limiter counts the jobs that are still to be released; and when
`thread_pool_destroy` has returned there are none.
-/

namespace LocalMarks.Server.Jobs
open LocalMarks.Lib LocalMarks.Pool
open LocalMarks.Limiter (RateLimit AcceptEnv ratelimitAccept ratelimitLeave freshLimiter ipSum
  ratelimitAccept_ipSum ratelimitLeave_ipSum)

variable {cap n i : ℕ} {maxConns : ℤ} {k : Stage} {s s' : ServerState}

/-! ### The runs of the server -/

theorem reachable_pool (h : ServerReachable cap n maxConns s) : Reachable cap n s.pool := by
  refine h.invariant (I := fun s => Reachable cap n s.pool) (fun t ht => ?_)
    fun t e t' _ hp hst => ?_
  · obtain ⟨-, clock, anyIp, rfl⟩ := ht
    exact .start rfl
  · rcases serverExec_exec hst with hsame | ⟨l, hl⟩
    · rw [hsame]
      exact hp
    · exact hp.next l hl

theorem producer_submitted (h : ServerReachable cap n maxConns s) (x : Submission)
    (hx : (s.pool.producer 0).task = some x) : x ∈ s.pool.submitted :=
  ((reachable_callInv (reachable_pool h)).entering 0 x hx).1

theorem reachable_synced (h : ServerReachable cap n maxConns s) : Synced s := by
  refine h.invariant (fun t ht => ?_) fun t e t' hr hi hst =>
    serverStep_synced (serverExec_step hst) hi (producer_submitted hr)
  obtain ⟨-, clock, anyIp, rfl⟩ := ht
  exact ⟨fun i hi => absurd rfl hi, fun hd => absurd rfl hd, fun _ => rfl,
    fun x hx => (by cases hx), fun hf => by cases hf⟩

theorem reachable_conn (h : ServerReachable cap n maxConns s) : ConnInv s := by
  refine h.invariant (fun t ht => ?_) fun t e t' hr hi hst =>
    serverStep_conn (serverExec_step hst) (reachable_synced hr) (producer_submitted hr) hi
  obtain ⟨-, clock, anyIp, rfl⟩ := ht
  exact ⟨fun j hj => (by cases hj), List.nodup_nil, fun st j hj => (by cases hj),
    fun c hc => (by cases hc), fun c hc => by cases hc⟩

theorem reachable_jobs (k : Stage) (h : ServerReachable cap n maxConns s) :
    ∃ place, (s.jobs cap k).Placed place := by
  refine h.invariant (I := fun s => ∃ place, (s.jobs cap k).Placed place) (fun t ht => ?_)
    fun t e t' hr hplaced hst => ?_
  · obtain ⟨-, clock, anyIp, rfl⟩ := ht
    refine ⟨fun _ => .nowhere, fun x => ?_, fun p x => ?_, fun x => ?_, fun i x => ?_,
      fun x => ?_, fun x => ?_⟩ <;>
      simp [ServerState.jobs, freshServer, mainJob, submitJob, workerJob, newPool,
        ProducerPc.task, WorkerPc.task, Frame.job, ThreadPool.contents]
  · obtain ⟨place, hd⟩ := hplaced
    have hpool := reachable_pool hr
    rcases serverStep_jobs (k := k) (serverExec_step hst) (reachable_synced hr)
      (reachable_conn hr) (reachable_inv hpool) (reachable_queueInv hpool)
      (producer_submitted hr) with hsame | hmove
    · exact ⟨place, hsame.symm ▸ hd⟩
    · exact hd.move hmove

/-! ### One function makes all three calls -/

/-- A function closes and frees what it has left, and the accept loop leaves nothing. -/
structure OrderInv (s : ServerState) : Prop where
  logs : ∀ w, w ≠ .acceptLoop → ∀ st, ∀ j ∈ s.done w st, j ∈ s.done w .leave
  handlers : ∀ i st j, s.handlers i = .releasing st j → st ≠ .leave → j ∈ s.done .handler .leave
  dropFrame : ∀ st j, s.dropFrame = .releasing st j → st ≠ .leave → j ∈ s.done .dropper .leave
  main : s.done .acceptLoop .leave = []

theorem OrderInv.quiet (h : OrderInv s) (hd : ∀ w, w ≠ .acceptLoop → s'.done w = s.done w)
    (hmain : s'.done .acceptLoop .leave = s.done .acceptLoop .leave)
    (hh : ∀ i st j, s'.handlers i = .releasing st j → st ≠ .leave →
      s.handlers i = .releasing st j)
    (hf : ∀ st j, s'.dropFrame = .releasing st j → st ≠ .leave →
      s.dropFrame = .releasing st j) : OrderInv s' where
  logs := by
    intro w hw
    rw [hd w hw]
    exact h.logs w hw
  handlers := by
    intro i st j hi hst
    rw [hd .handler handler_ne]
    exact h.handlers i st j (hh i st j hi hst) hst
  dropFrame := by
    intro st j hi hst
    rw [hd .dropper dropper_ne]
    exact h.dropFrame st j (hf st j hi hst) hst
  main := hmain.trans h.main

theorem handlers_set {f : Frame} (hf : ∀ st j, f = .releasing st j → st = .leave)
    {handlers : ℕ → Frame} (j' : ℕ) (st : Stage) (j : ℕ)
    (h : Function.update handlers i f j' = .releasing st j) (hst : st ≠ .leave) :
    handlers j' = .releasing st j := by
  by_cases hj : j' = i
  · rw [hj, Function.update_self] at h
    exact absurd (hf st j h) hst
  · rwa [Function.update_of_ne hj] at h

theorem mainStep_order (hst : MainStep cap s s') (h : OrderInv s) : OrderInv s' := by
  have hclose : ∀ c pc, OrderInv ((s.log .acceptLoop .close c).goto pc) := fun c pc =>
    h.quiet (fun w hw => funext fun st => letGo_done s .close st c pc hw) rfl
      (fun _ _ _ hi _ => hi) fun _ _ hi _ => hi
  have hfree : ∀ c pc, OrderInv ((s.log .acceptLoop .free c).goto pc) := fun c pc =>
    h.quiet (fun w hw => funext fun st => letGo_done s .free st c pc hw) rfl
      (fun _ _ _ hi _ => hi) fun _ _ hi _ => hi
  cases hst with
  | giveUp c pc hs hpc => exact hclose c pc
  | close c hs => exact hclose c _
  | free c hs => exact hfree c _
  | _ => exact h.quiet (fun _ _ => rfl) rfl (fun _ _ _ hi _ => hi) fun _ _ hi _ => hi

theorem after_left {d : List ℕ} {stage st : Stage} {job j : ℕ}
    (hd : stage ≠ .leave → job ∈ d) (h : Frame.after job stage = .releasing st j)
    (hst : st ≠ .leave) : j ∈ if Stage.leave = stage then d ++ [job] else d := by
  cases stage with
  | leave =>
    cases h
    rw [if_pos rfl]
    exact List.mem_append_right _ (List.mem_singleton_self _)
  | close =>
    cases h
    rw [if_neg fun h => (by cases h)]
    exact hd fun h => (by cases h)
  | free => cases h

/-- The logs after a call: whatever was called before or now, `ratelimit_leave` came first. -/
theorem release_logs (h : OrderInv s) {who : Releaser} {stage : Stage} {job : ℕ} (now : ℤ)
    (hd : stage ≠ .leave → job ∈ s.done who .leave) (w : Releaser) (hw : w ≠ .acceptLoop)
    (st : Stage) (j : ℕ) (hj : j ∈ (s.release who stage job now).done w st) :
    j ∈ (s.release who stage job now).done w .leave := by
  rw [release_done] at hj ⊢
  have hgrow : ∀ a, a ∈ s.done w .leave →
      a ∈ if w = who ∧ Stage.leave = stage then s.done w .leave ++ [job] else s.done w .leave := by
    intro a ha
    split
    · exact List.mem_append_left _ ha
    · exact ha
  split at hj
  · rename_i hc
    rcases List.mem_append.mp hj with hj | hj
    · exact hgrow j (h.logs w hw st j hj)
    · rw [List.mem_singleton.mp hj]
      by_cases hs : stage = .leave
      · rw [if_pos ⟨hc.1, hs.symm⟩]
        exact List.mem_append_right _ (List.mem_singleton_self _)
      · exact hgrow job (hc.1 ▸ hd hs)
  · exact hgrow j (h.logs w hw st j hj)

theorem serverStep_order (hst : ServerStep cap s s') (hsync : Synced s)
    (hx : ∀ x, (s.pool.producer 0).task = some x → x ∈ s.pool.submitted) (h : OrderInv s) :
    OrderInv s' := by
  cases hst with
  | signal => exact h.quiet (fun _ _ => rfl) rfl (fun _ _ _ hi _ => hi) fun _ _ hi _ => hi
  | main hm => exact mainStep_order hm h
  | pool hp =>
    cases hp with
    | forget x hs hpc hd =>
      rw [hsync.droppable hx hpc] at hd
      cases hd
    | drop x hs hpc hd =>
      refine h.quiet (fun _ _ => rfl) rfl (fun _ _ _ hi _ => hi) fun st j hi hst => ?_
      cases hi
      exact absurd rfl hst
    | dropped x hs hpc hf =>
      exact h.quiet (fun _ _ => rfl) rfl (fun _ _ _ hi _ => hi) fun st j hi _ => by cases hi
    | call i x hpc =>
      exact h.quiet (fun _ _ => rfl) rfl (handlers_set fun st j hf => by cases hf)
        fun _ _ hi _ => hi
    | done i x hpc hf =>
      exact h.quiet (fun _ _ => rfl) rfl (handlers_set fun st j hf => by cases hf)
        fun _ _ hi _ => hi
    | _ => exact h.quiet (fun _ _ => rfl) rfl (fun _ _ _ hi _ => hi) fun _ _ hi _ => hi
  | served i job hf =>
    refine h.quiet (fun _ _ => rfl) rfl (handlers_set fun st j hf => ?_) fun _ _ hi _ => hi
    cases hf
    rfl
  | handle i stage job now hf =>
    have hleft : stage ≠ .leave → job ∈ s.done .handler .leave := h.handlers i stage job hf
    refine ⟨release_logs h now hleft, fun i' st j hi hst => ?_, fun st j hi hst => ?_, ?_⟩
    · simp only [ServerState.atHandler, release_handlers, release_done, true_and] at hi ⊢
      by_cases hii : i' = i
      · rw [hii, Function.update_self] at hi
        exact after_left hleft hi hst
      · rw [Function.update_of_ne hii] at hi
        have hold := h.handlers i' st j hi hst
        split
        · exact List.mem_append_left _ hold
        · exact hold
    · simp only [ServerState.atHandler, release_dropFrame, release_done, reduceCtorEq, false_and,
        if_false] at hi ⊢
      exact h.dropFrame st j hi hst
    · simp only [ServerState.atHandler, release_done, reduceCtorEq, false_and, if_false]
      exact h.main
  | drop stage job now hf =>
    have hleft : stage ≠ .leave → job ∈ s.done .dropper .leave := h.dropFrame stage job hf
    refine ⟨release_logs h now hleft, fun i' st j hi hst => ?_, fun st j hi hst => ?_, ?_⟩
    · simp only [release_handlers, release_done, reduceCtorEq, false_and, if_false] at hi ⊢
      exact h.handlers i' st j hi hst
    · simp only [release_done, true_and]
      exact after_left hleft hi hst
    · simp only [release_done, reduceCtorEq, false_and, if_false]
      exact h.main

theorem reachable_order (h : ServerReachable cap n maxConns s) : OrderInv s := by
  refine h.invariant (fun t ht => ?_) fun t e t' hr hi hst =>
    serverStep_order (serverExec_step hst) (reachable_synced hr) (producer_submitted hr) hi
  obtain ⟨-, clock, anyIp, rfl⟩ := ht
  exact ⟨fun w hw st j hj => (by cases hj), fun i st j hi => (by cases hi),
    fun st j hi => (by cases hi), rfl⟩

/-! ### The limiter -/

/-- The admitted jobs of an IP for which `ratelimit_leave` has not been called. -/
def ServerState.unreleased (s : ServerState) (x : CString) : List ℕ :=
  s.admitted.filter fun j =>
    s.ip j = x ∧ j ∉ s.done .handler .leave ∧ j ∉ s.done .dropper .leave

theorem unreleased_same (ha : s'.admitted = s.admitted) (hip : ∀ j ∈ s.admitted, s'.ip j = s.ip j)
    (hh : s'.done .handler .leave = s.done .handler .leave)
    (hd : s'.done .dropper .leave = s.done .dropper .leave) (x : CString) :
    s'.unreleased x = s.unreleased x := by
  rw [ServerState.unreleased, ServerState.unreleased, ha, hh, hd]
  exact List.filter_congr fun j hj => by rw [hip j hj]

/-- The call of `ratelimit_leave` takes its job off the list of its IP. -/
theorem unreleased_leave {job : ℕ} {w : Releaser} (hw : w ≠ .acceptLoop) (hconn : ConnInv s)
    (hmem : job ∈ s.admitted) (hh : job ∉ s.done .handler .leave)
    (hd : job ∉ s.done .dropper .leave) (ha : s'.admitted = s.admitted) (hip : s'.ip = s.ip)
    (hdone : ∀ v, s'.done v .leave = if v = w then s.done v .leave ++ [job] else s.done v .leave)
    (x : CString) :
    (s'.unreleased x).length = (s.unreleased x).length - if x = s.ip job then 1 else 0 := by
  have hnodup : (s.unreleased x).Nodup := hconn.nodup.filter _
  have herase : s'.unreleased x = (s.unreleased x).erase job := by
    rw [hnodup.erase_eq_filter, ServerState.unreleased, ServerState.unreleased, ha, hip,
      List.filter_filter]
    refine List.filter_congr fun j _ => ?_
    rw [hdone, hdone]
    cases w with
    | acceptLoop => exact absurd rfl hw
    | handler | dropper =>
      simp only [reduceCtorEq, if_true, if_false, List.mem_append, List.mem_singleton]
      by_cases hj : j = job <;> simp [hj]
  rw [herase]
  by_cases hx : x = s.ip job
  · rw [if_pos hx, List.length_erase_of_mem]
    rw [ServerState.unreleased, List.mem_filter]
    exact ⟨hmem, by simp [hx, hh, hd]⟩
  · rw [if_neg hx, List.erase_of_not_mem, Nat.sub_zero]
    rw [ServerState.unreleased, List.mem_filter]
    intro hin
    exact hx (by simpa using (of_decide_eq_true hin.2).1.symm)

/-- The limiter's sum of an IP is the number of its unreleased jobs. -/
def LimiterAgrees (s : ServerState) : Prop := ∀ x, ipSum s.limiter x = (s.unreleased x).length

theorem mainStep_limiter (hst : MainStep cap s s') (hconn : ConnInv s)
    (hleft : ∀ w, w ≠ .acceptLoop → ∀ j ∈ s.done w .leave, j ∈ s.admitted)
    (h : LimiterAgrees s) : LimiterAgrees s' := by
  cases hst with
  | allocate c ip hs =>
    have hc := (hconn.fresh c (by rw [hs]; rfl)).2.1
    intro x
    refine (h x).trans (congrArg List.length
      (unreleased_same ?_ (fun j hj => ?_) ?_ ?_ x)).symm <;> try rfl
    have hjc : j ≠ c := by
      rintro rfl
      exact hc hj
    exact Function.update_of_ne hjc _ _
  | takeIn c env hs hr =>
    have hc := (hconn.fresh c (by rw [hs]; rfl)).2.1
    have hnot : ∀ w, w ≠ .acceptLoop → c ∉ s.done w .leave := fun w hw hmem =>
      hc (hleft w hw c hmem)
    intro x
    have hlist : ({ s with
        limiter := (ratelimitAccept s.limiter (s.ip c) env).2
        admitted := s.admitted ++ [c] }.goto (.submitting c) : ServerState).unreleased x =
          s.unreleased x ++ if s.ip c = x then [c] else [] := by
      simp only [ServerState.unreleased, ServerState.goto, List.filter_append]
      congr 1
      by_cases hx : s.ip c = x
      · simp [hx, hnot .handler handler_ne, hnot .dropper dropper_ne]
      · simp [hx]
    rw [hlist, List.length_append]
    change ipSum (ratelimitAccept s.limiter (s.ip c) env).2 x = _
    rw [ratelimitAccept_ipSum, h x]
    by_cases hx : s.ip c = x
    · rw [if_pos hx, if_pos ⟨hr, hx.symm⟩]
      rfl
    · rw [if_neg hx, if_neg fun hcond => hx hcond.2.symm]
      rfl
  | reject c env hs hr =>
    intro x
    change ipSum (ratelimitAccept s.limiter (s.ip c) env).2 x = _
    rw [ratelimitAccept_ipSum, h x, if_neg fun hcond => hr hcond.1]
    rfl
  | _ => exact fun x => (h x).trans rfl

theorem release_limiter (hconn : ConnInv s) {w : Releaser} (hw : w ≠ .acceptLoop)
    (stage : Stage) (job : ℕ) (now : ℤ)
    (hheld : stage = .leave → job ∈ s.admitted ∧ job ∉ s.done .handler .leave ∧
      job ∉ s.done .dropper .leave) (h : LimiterAgrees s) :
    LimiterAgrees (s.release w stage job now) := by
  cases stage with
  | leave =>
    obtain ⟨hmem, hh, hd⟩ := hheld rfl
    intro x
    have hlen : ((s.release w .leave job now).unreleased x).length =
        (s.unreleased x).length - if x = s.ip job then 1 else 0 := by
      refine unreleased_leave hw hconn hmem hh hd ?_ ?_ (fun v => ?_) x
      · exact release_admitted ..
      · exact release_ip ..
      · simp only [release_done, and_true]
    rw [hlen, ← h x]
    exact ratelimitLeave_ipSum s.limiter (s.ip job) now x
  | close | free =>
    intro x
    refine (h x).trans (congrArg List.length (unreleased_same (release_admitted ..)
      (fun j _ => by rw [release_ip]) ?_ ?_ x)).symm
    · rw [release_done, if_neg fun hc => (by cases hc.2)]
    · rw [release_done, if_neg fun hc => (by cases hc.2)]

/-- A job in some hand for the leave stage is admitted and has not been left. -/
theorem held_of_underway {job : ℕ} (hr : ServerReachable cap n maxConns s)
    (hu : (s.jobs cap .leave).Underway job) :
    job ∈ s.admitted ∧ job ∉ s.done .handler .leave ∧ job ∉ s.done .dropper .leave := by
  obtain ⟨place, hd⟩ := reachable_jobs .leave hr
  obtain ⟨hmem, hserved, hrefused⟩ := hd.of_underway hu
  exact ⟨hmem, List.count_eq_zero.mp hserved, List.count_eq_zero.mp hrefused⟩

theorem handler_held {job : ℕ} (hr : ServerReachable cap n maxConns s)
    (hf : s.handlers i = .releasing .leave job) :
    job ∈ s.admitted ∧ job ∉ s.done .handler .leave ∧ job ∉ s.done .dropper .leave := by
  obtain ⟨x, hrun⟩ := (reachable_synced hr).handlers i (by simp [hf])
  refine held_of_underway hr (.inr (.inr ⟨i, ?_⟩))
  simp [ServerState.jobs, workerJob, hrun, hf, WorkerPc.task, Frame.job]

theorem dropper_held {job : ℕ} (hr : ServerReachable cap n maxConns s)
    (hf : s.dropFrame = .releasing .leave job) :
    job ∈ s.admitted ∧ job ∉ s.done .handler .leave ∧ job ∉ s.done .dropper .leave := by
  obtain ⟨x, hin⟩ := (reachable_synced hr).dropFrame (by simp [hf])
  have hs : s.main = .inSubmit := (reachable_synced hr).inSubmit (by simp [hf])
  refine held_of_underway hr (.inl ⟨0, ?_⟩)
  simp [ServerState.jobs, mainJob, submitJob, hs, hin, hf, ProducerPc.task, Frame.job]

theorem left_admitted (hr : ServerReachable cap n maxConns s) (w : Releaser)
    (hw : w ≠ .acceptLoop) (k : Stage) (j : ℕ) (hj : j ∈ s.done w k) : j ∈ s.admitted := by
  obtain ⟨place, hd⟩ := reachable_jobs k hr
  by_contra hnot
  obtain ⟨-, hserved, hrefused⟩ := hd.foreign hnot
  cases w with
  | handler => exact List.count_eq_zero.mp hserved hj
  | dropper => exact List.count_eq_zero.mp hrefused hj
  | acceptLoop => exact absurd rfl hw

theorem reachable_limiter (h : ServerReachable cap n maxConns s) : LimiterAgrees s := by
  refine h.invariant (I := LimiterAgrees) (fun t ht => ?_) fun t e t' hr hi hst => ?_
  · obtain ⟨hpos, clock, anyIp, rfl⟩ := ht
    intro x
    have hfresh := Limiter.fresh_accounted (Limiter.freshState_fresh clock hpos)
    exact hfresh.sum x
  · cases serverExec_step hst with
    | signal | served _ _ _ => exact hi
    | main hm =>
      exact mainStep_limiter hm (reachable_conn hr)
        (fun w hw j hj => left_admitted hr w hw .leave j hj) hi
    | pool hp =>
      cases hp with
      | forget x hs hpc hd =>
        rw [(reachable_synced hr).droppable (producer_submitted hr) hpc] at hd
        cases hd
      | _ => exact hi
    | handle i stage job now hf =>
      have hrel := release_limiter (reachable_conn hr) handler_ne stage job now
        (fun hst => handler_held hr (hst ▸ hf)) hi
      exact hrel
    | drop stage job now hf =>
      have hrel := release_limiter (reachable_conn hr) dropper_ne stage job now
        (fun hst => dropper_held hr (hst ▸ hf)) hi
      exact hrel

/-! ### The law -/

/-- Every job that was admitted is released once, and the limiter knows the others. -/
structure Balanced (cap : ℕ) (s : ServerState) : Prop where
  once : ∀ k j, (s.done .handler k).count j + (s.done .dropper k).count j ≤ 1
  kept : ∀ k, ∀ j ∈ s.admitted, (s.jobs cap k).Underway j ∨
    (s.done .handler k).count j + (s.done .dropper k).count j = 1
  exclusive : ∀ k k' j, j ∈ s.done .handler k → j ∉ s.done .dropper k'
  own : ∀ k, ∀ j ∈ s.admitted, j ∉ s.done .acceptLoop k
  paired : ∀ w, ∀ j ∈ s.done w .leave, j ∈ s.admitted
  sums : ∀ x, ipSum s.limiter x = (s.unreleased x).length
  finished : s.main = .finished →
    (∀ k, ∀ j ∈ s.admitted, (s.done .handler k).count j + (s.done .dropper k).count j = 1) ∧
      ∀ x, ipSum s.limiter x = 0

theorem released_at_most_once (h : ServerReachable cap n maxConns s) (k : Stage) (j : ℕ) :
    (s.done .handler k).count j + (s.done .dropper k).count j ≤ 1 := by
  obtain ⟨place, hd⟩ := reachable_jobs k h
  by_cases hj : j ∈ s.admitted
  · rcases hd.outcome hj with ⟨-, hserved, hrefused⟩ | ⟨-, hsum⟩
    · simp only [ServerState.jobs] at hserved hrefused
      omega
    · exact hsum.le
  · obtain ⟨-, hserved, hrefused⟩ := hd.foreign hj
    simp only [ServerState.jobs] at hserved hrefused
    omega

/-- A job that `handle_client` let go of at one stage is not touched by `client_job_drop` at
any: both would have left it. -/
theorem released_by_one (h : ServerReachable cap n maxConns s) (k k' : Stage) (j : ℕ)
    (hj : j ∈ s.done .handler k) : j ∉ s.done .dropper k' := by
  intro hj'
  have horder := reachable_order h
  have hh := horder.logs .handler handler_ne k j hj
  have hd := horder.logs .dropper dropper_ne k' j hj'
  have honce := released_at_most_once h .leave j
  have hpos := List.count_pos_iff.mpr hh
  have hpos' := List.count_pos_iff.mpr hd
  omega

theorem nothing_underway (h : ServerReachable cap n maxConns s) (hn : 0 < n)
    (hfin : s.main = .finished) (k : Stage) (j : ℕ) : ¬(s.jobs cap k).Underway j := by
  have hsync := reachable_synced h
  have hpool := reachable_pool h
  have hall : ∀ i < n, s.pool.worker i = .exited :=
    (reachable_joined hpool).2 (hsync.finished hfin)
  have hidle : s.pool.producer 0 = .idle := hsync.outside (by simp [hfin])
  have hmain : mainJob k s = none := by
    rw [mainJob_eq (by simp [hfin]), submitJob, hidle, hsync.noDrop (by simp [hidle])]
    rfl
  rintro (⟨p, hp⟩ | hline | ⟨i, hi⟩)
  · simp only [ServerState.jobs, hmain, ite_self, reduceCtorEq] at hp
  · simp only [ServerState.jobs, (reachable_drained hpool hn hall).1, List.map_nil,
      List.not_mem_nil] at hline
  · have hgone : s.pool.worker i = .exited ∨ s.pool.worker i = .locking := by
      rcases Nat.lt_or_ge i n with hlt | hge
      · exact .inl (hall i hlt)
      · exact .inr ((reachable_workers hpool).2 i hge)
    have hfree : workerJob k s i = none := by
      rcases hgone with hw | hw <;>
        rw [workerJob, hw, hsync.noHandler (by simp [hw])] <;> rfl
    simp only [ServerState.jobs, hfree, reduceCtorEq] at hi

/-- Every interleaving of the accept loop, the workers and shutdown, for the number of workers
`thread_pool_create` settles on. -/
theorem jobs_balanced {threads : ℤ} (h : ServerReachable cap (clampThreads threads) maxConns s) :
    Balanced cap s := by
  have hkept : ∀ k, ∀ j ∈ s.admitted, (s.jobs cap k).Underway j ∨
      (s.done .handler k).count j + (s.done .dropper k).count j = 1 := by
    intro k j hj
    obtain ⟨place, hd⟩ := reachable_jobs k h
    rcases hd.outcome hj with ⟨hu, -⟩ | ⟨-, hsum⟩
    · exact .inl hu
    · exact .inr hsum
  refine ⟨released_at_most_once h, hkept, fun k k' j => released_by_one h k k' j,
    fun k j hj hmem => ((reachable_conn h).closed k j hmem).2 hj, fun w j hj => ?_,
    reachable_limiter h, fun hfin => ?_⟩
  · by_cases hw : w = .acceptLoop
    · rw [hw, (reachable_order h).main] at hj
      cases hj
    · exact left_admitted h w hw .leave j hj
  · have hdone : ∀ k, ∀ j ∈ s.admitted,
        (s.done .handler k).count j + (s.done .dropper k).count j = 1 := fun k j hj =>
      (hkept k j hj).resolve_left (nothing_underway h (clampThreads_bounds threads).1 hfin k j)
    refine ⟨hdone, fun x => ?_⟩
    rw [reachable_limiter h x, List.length_eq_zero_iff, ServerState.unreleased,
      List.filter_eq_nil_iff]
    intro j hj hcond
    obtain ⟨-, hh, hd⟩ := of_decide_eq_true hcond
    have hone := hdone .leave j hj
    rw [List.count_eq_zero_of_not_mem hh, List.count_eq_zero_of_not_mem hd] at hone
    cases hone

/-- One client is accepted, served and released; then the server is stopped. -/
def servedRun : List ServerLabel :=
  let env : Env := ⟨true, false, Limiter.ipA, Limiter.acceptAt 5⟩
  List.replicate 8 (ServerLabel.main env) ++
    List.replicate 6 (ServerLabel.pool (.submit 0 none)) ++ [ServerLabel.main env] ++
    List.replicate 7 (ServerLabel.pool (.work 0 none)) ++
    List.replicate 4 (ServerLabel.handler 0 9) ++
    [ServerLabel.pool (.work 0 none), .signal, .main env, .main env] ++
    List.replicate 3 (ServerLabel.pool .destroy) ++
    List.replicate 4 (ServerLabel.pool (.work 0 none)) ++
    List.replicate 2 (ServerLabel.pool .destroy) ++ [ServerLabel.main env]

theorem jobs_balanced_served : ∃ s, ServerReachable 4096 (clampThreads 1) 8 s ∧
    s.main = .finished ∧ s.admitted = [0] ∧ Balanced 4096 s := by
  have hrun : (runList (serverExec 4096) (freshServer (clampThreads 1) 8 0 Limiter.ipA)
      servedRun).map (fun s => (s.main, s.admitted)) = some (.finished, [0]) := by decide +kernel
  obtain ⟨s, hs, hend⟩ := Option.map_eq_some_iff.mp hrun
  have hreach : ServerReachable 4096 (clampThreads 1) 8 s :=
    Reach.of_runList servedRun (.start ⟨by decide, 0, Limiter.ipA, rfl⟩) hs
  exact ⟨s, hreach, congrArg Prod.fst hend, congrArg Prod.snd hend, jobs_balanced hreach⟩

end LocalMarks.Server.Jobs
