import LocalMarks.RateLimit.Runs
import LocalMarks.ThreadPool.Accounting

/-!
# Jobs from the accept loop to their release

The accept loop of `server_run`, the pool it submits to, and the two functions that release a
`ClientJob`, step by step. Connections are numbered in the order `accept` returned them; the
job of a connection has its number. `handle_client` returns sooner or later; what it does for
the client in between is one step here.
-/

namespace LocalMarks.Server.Jobs
open LocalMarks.Lib LocalMarks.Pool
open LocalMarks.Limiter (RateLimit AcceptEnv ratelimitAccept ratelimitLeave freshLimiter)

/-- The calls that release a job, in their order: `ratelimit_leave`, `transport_destroy` (for a
connection without a job yet also `close`), `free`. -/
inductive Stage where
  | leave
  | close
  | free
  deriving DecidableEq

def Stage.rank : Stage → ℕ
  | .leave => 0
  | .close => 1
  | .free => 2

/-- Who makes a call: the end of `handle_client`, `client_job_drop`, or the accept loop. -/
inductive Releaser where
  | handler
  | dropper
  | acceptLoop
  deriving DecidableEq

/-- A call of `handle_client` or of `client_job_drop`: where it stands. -/
inductive Frame where
  | none
  | serving (job : ℕ)
  | releasing (stage : Stage) (job : ℕ)
  | returned
  deriving DecidableEq

/-- After a stage comes the next one, and after `free` the function returns. -/
def Frame.after (job : ℕ) : Stage → Frame
  | .leave => .releasing .close job
  | .close => .releasing .free job
  | .free => .returned

inductive MainPc where
  | testing
  | accepting
  | accepted (c : ℕ)
  | wrapping (c : ℕ)
  | handshaking (c : ℕ)
  | allocating (c : ℕ)
  | limiting (c : ℕ)
  | rejecting (c : ℕ)
  | freeing (c : ℕ)
  | submitting (c : ℕ)
  | inSubmit
  | closing
  | destroying
  | finished
  deriving DecidableEq

/-- `admitted` are the jobs whose `ratelimit_accept` succeeded, and `done` the calls of each
kind that each of the three has made so far. -/
structure ServerState where
  pool : ThreadPool
  limiter : RateLimit
  shutdown : Bool
  main : MainPc
  handlers : ℕ → Frame
  dropFrame : Frame
  conns : ℕ
  ip : ℕ → CString
  admitted : List ℕ
  done : Releaser → Stage → List ℕ

/-- How the calls of one step of the accept loop turn out. -/
structure Env where
  ok : Bool
  interrupted : Bool
  ip : CString
  limit : AcceptEnv

inductive ServerLabel where
  | signal
  | main (env : Env)
  | pool (l : Label)
  | handler (i : ℕ) (now : ℤ)
  | dropper (now : ℤ)

/-- `thread_pool_submit(pool, handle_client, client_job_drop, job)` -/
def clientTask (job : ℕ) : ThreadTask := ⟨1, some 2, some job⟩

def jobOf (x : Submission) : ℕ := x.task.arg.getD 0

namespace ServerState

def goto (s : ServerState) (pc : MainPc) : ServerState := { s with main := pc }

def log (s : ServerState) (who : Releaser) (stage : Stage) (job : ℕ) : ServerState :=
  { s with done := fun w st =>
      if w = who ∧ st = stage then s.done w st ++ [job] else s.done w st }

def release (s : ServerState) (who : Releaser) (stage : Stage) (job : ℕ) (now : ℤ) :
    ServerState :=
  match stage with
  | .leave => { s.log who .leave job with limiter := ratelimitLeave s.limiter (s.ip job) now }
  | .close => s.log who .close job
  | .free => s.log who .free job

def atHandler (s : ServerState) (i : ℕ) (f : Frame) : ServerState :=
  { s with handlers := Function.update s.handlers i f }

end ServerState

/-- The next step of the accept loop. The failing branches close the connection and go back to
the loop test; a rejected one is answered 429, closed and its job freed. -/
def mainStep (cap : ℕ) (env : Env) (s : ServerState) : Option ServerState :=
  match s.main with
  | .testing => some (s.goto (if s.shutdown then .closing else .accepting))
  | .accepting =>
    if env.ok then some ({ s with conns := s.conns + 1 }.goto (.accepted s.conns))
    else if env.interrupted then some (s.goto .testing)
    else some (s.goto (if s.shutdown then .closing else .testing))
  | .accepted c =>
    if s.shutdown then some ((s.log .acceptLoop .close c).goto .closing)
    else some (s.goto (.wrapping c))
  | .wrapping c =>
    if env.ok then some (s.goto (.handshaking c))
    else some ((s.log .acceptLoop .close c).goto .testing)
  | .handshaking c =>
    if env.ok then some (s.goto (.allocating c))
    else some ((s.log .acceptLoop .close c).goto .testing)
  | .allocating c =>
    if env.ok then some ({ s with ip := Function.update s.ip c env.ip }.goto (.limiting c))
    else some ((s.log .acceptLoop .close c).goto .testing)
  | .limiting c =>
    let r := ratelimitAccept s.limiter (s.ip c) env.limit
    if r.1 = 0 then
      some ({ s with limiter := r.2, admitted := s.admitted ++ [c] }.goto (.submitting c))
    else some ({ s with limiter := r.2 }.goto (.rejecting c))
  | .rejecting c => some ((s.log .acceptLoop .close c).goto (.freeing c))
  | .freeing c => some ((s.log .acceptLoop .free c).goto .testing)
  | .submitting c => (exec cap s.pool (.call 0 (clientTask c))).map fun pool =>
    { s with pool := pool }.goto .inSubmit
  | .inSubmit => if s.pool.producer 0 = .idle then some (s.goto .testing) else none
  | .closing => some (s.goto .destroying)
  | .destroying => if s.pool.destroyer = .destroyed then some (s.goto .finished) else none
  | .finished => none

/-- A step inside the pool. Worker `i` enters `handle_client` when it calls its task and goes on
when that has returned; so does the accept loop with `client_job_drop`. The accept loop is the
only thread that submits, and the one that destroys. -/
def poolStep (cap : ℕ) (l : Label) (s : ServerState) : Option ServerState :=
  let move := (exec cap s.pool l).map fun pool => { s with pool := pool }
  match l with
  | .call _ _ => none
  | .submit p _ =>
    if p = 0 ∧ s.main = .inSubmit then
      match s.pool.producer 0 with
      | .dropping x => move.map fun s' => { s' with dropFrame := .releasing .leave (jobOf x) }
      | .inDrop _ =>
        if s.dropFrame = .returned then move.map fun s' => { s' with dropFrame := .none } else none
      | _ => move
    else none
  | .work i _ =>
    match s.pool.worker i with
    | .calling x => move.map fun s' => s'.atHandler i (.serving (jobOf x))
    | .running _ =>
      if s.handlers i = .returned then move.map fun s' => s'.atHandler i .none else none
    | _ => move
  | .destroy => if s.main = .destroying then move else none
  | .spuriousWorker _ | .spuriousProducer _ => move

/-- The next step of `handle_client` in worker `i`. -/
def handlerStep (i : ℕ) (now : ℤ) (s : ServerState) : Option ServerState :=
  match s.handlers i with
  | .serving job => some (s.atHandler i (.releasing .leave job))
  | .releasing stage job => some ((s.release .handler stage job now).atHandler i (.after job stage))
  | .none | .returned => none

/-- The next step of `client_job_drop`. -/
def dropperStep (now : ℤ) (s : ServerState) : Option ServerState :=
  match s.dropFrame with
  | .releasing stage job =>
    some { s.release .dropper stage job now with dropFrame := .after job stage }
  | .none | .serving _ | .returned => none

def serverExec (cap : ℕ) (s : ServerState) : ServerLabel → Option ServerState
  | .signal => some { s with shutdown := true }
  | .main env => mainStep cap env s
  | .pool l => poolStep cap l s
  | .handler i now => handlerStep i now s
  | .dropper now => dropperStep now s

/-- A per-IP limit is configured: `rl` is not NULL. -/
def freshServer (n : ℕ) (maxConns clock : ℤ) (anyIp : CString) : ServerState where
  pool := newPool n
  limiter := freshLimiter maxConns clock
  shutdown := false
  main := .testing
  handlers := fun _ => .none
  dropFrame := .none
  conns := 0
  ip := fun _ => anyIp
  admitted := []
  done := fun _ _ => []

def ServerReachable (cap n : ℕ) (maxConns : ℤ) : ServerState → Prop :=
  Reach (fun s => 0 < maxConns ∧ ∃ clock anyIp, s = freshServer n maxConns clock anyIp)
    (StepOf (serverExec cap))

end LocalMarks.Server.Jobs
