import LocalMarks.Http.ReadHeaders
import LocalMarks.Http.Routes

/-!
# Serving a connection (server.c)

`handleClient` is the loop of `handle_client`, recorded as the list of what it does: the raw
buffers acquired and released, the header blocks read, the requests parsed and the responses
written.
-/

namespace LocalMarks.Server
open LocalMarks.Lib
open LocalMarks.Http

/-- The part of `ServerConfig` that `handle_client` reads. -/
structure ServerConfig where
  user : Option CString
  pass : Option CString
  keepAliveTimeout : ℤ
  firstDb : Bool

/-- The environment of one round of the loop: whether the raw buffer can be allocated, what
the rest of the server answers, and the shutdown flag at the end of the round. -/
structure Round where
  mallocOk : Bool
  svc : Services
  shutdown : Bool

/-- A server without databases, embedded files and authentication. -/
def bareServer : ServerConfig := ⟨none, none, 5, false⟩

def bareRound : Round where
  mallocOk := true
  svc :=
    { date := fieldOf 56 dateSize_pos [], vfsLookup := fun _ => none, dbMetaCount := 0,
      bookmarkCopy := fun _ => none, databasesJson := none, databaseJson := fun _ => none }
  shutdown := false

/-- `k` is the round. A response without a request answers no parsed request. -/
inductive Event where
  | acquire (k : ℕ)
  | release (k : ℕ)
  | read (k : ℕ) (block : Option Bytes)
  | parsed (k : ℕ) (req : HttpRequest)
  | respond (k : ℕ) (req : Option HttpRequest) (r : Response)
  | setTimeout (seconds : ℤ)

/-- `wants_keep_alive`. -/
def wantsKeepAlive (req : HttpRequest) (timeout : ℤ) : Bool :=
  if timeout ≤ 0 then false
  else if req.version.bytes = ascii "HTTP/1.1" then
    !strcasestr req.connection.bytes (ascii "close")
  else strcasestr req.connection.bytes (ascii "keep-alive")

def badRequest : Response :=
  httpSendStatus 400 (ascii "Bad Request") (ascii "<h1>400 Bad Request</h1>")

/-- The response that is written, if the header block fits. -/
def wrote (k : ℕ) (req : HttpRequest) (r : Option Response) : List Event :=
  (r.map (Event.respond k (some req))).toList

/-- The check is made only when a user or a password is configured. -/
def denied (cfg : ServerConfig) (req : HttpRequest) : Bool :=
  (cfg.user.isSome || cfg.pass.isSome) && !authCheck req cfg.user cfg.pass

/-- One round of the loop: what it does, and the connection if there is another round. -/
def clientRound (cfg : ServerConfig) (env : Round) (k : ℕ) (t : Conn) : List Event × Option Conn :=
  match httpParseRequest t env.mallocOk with
  | .noMemory => ([.respond k none badRequest], none)
  | .readFailed _ => ([.acquire k, .read k none, .release k, .respond k none badRequest], none)
  | .badLine block _ => ([.acquire k, .read k (some block), .respond k none badRequest], none)
  | .ok block req t' =>
    let start := [.acquire k, .read k (some block), .parsed k req]
    if denied cfg req then
      (start ++ wrote k req (authSendChallenge env.svc.date), none)
    else
      let keepAlive := wantsKeepAlive req cfg.keepAliveTimeout
      let served := start ++ wrote k req (answer env.svc cfg.firstDb req keepAlive) ++ [.release k]
      if !keepAlive then (served, none)
      else
        let kept := served ++ [.setTimeout cfg.keepAliveTimeout]
        if env.shutdown then (kept, none) else (kept, some t')

/-- The rounds from `k` on. Every round that is followed by another one uses up a read. -/
def clientLoop (cfg : ServerConfig) (env : ℕ → Round) : ℕ → ℕ → Conn → List Event
  | 0, _, _ => []
  | fuel + 1, k, t =>
    let r := clientRound cfg (env k) k t
    match r.2 with
    | none => r.1
    | some t' => r.1 ++ clientLoop cfg env fuel (k + 1) t'

/-- `handle_client`, up to the end of its loop. -/
def handleClient (cfg : ServerConfig) (env : ℕ → Round) (t : Conn) : List Event :=
  clientLoop cfg env (t.sched.length + 1) 0 t

/-- A request in HTTP/1.1 for a file that a server without files does not have. -/
def missingRequest : Bytes := ascii "GET /missing HTTP/1.1\r\n\r\n"

theorem missingRequest_parsed : ∃ req, parseBlock missingRequest = some req ∧
    wantsKeepAlive req 5 = true ∧ routeOf false req = .file := by
  have hparse : (parseBlock missingRequest).map
      (fun req => (wantsKeepAlive req 5, routeOf false req)) = some (true, .file) := by
    decide +kernel
  obtain ⟨req, hreq, hroute⟩ := Option.map_eq_some_iff.mp hparse
  exact ⟨req, hreq, (Prod.mk.inj hroute).1, (Prod.mk.inj hroute).2⟩

/-! ### The loop ends by itself -/

theorem readLoop_sched (max : ℕ) (stream : Bytes) (sched : List ReadOutcome) (buf : Bytes) :
    (readLoop max stream sched buf).2.sched.length ≤ sched.length := by
  induction sched generalizing stream buf with
  | nil =>
    unfold readLoop
    split <;> exact le_rfl
  | cons o os ih =>
    unfold readLoop
    split
    · split
      · exact Nat.le_succ _
      · dsimp only
        split
        · exact Nat.le_succ _
        · exact (ih _ _).trans (Nat.le_succ _)
    · exact le_rfl

theorem readHeaders_sched {t t' : Conn} {block : Bytes} {max : ℕ} (hmax : 1 < max)
    (h : readHeaders t max = (some block, t')) : t'.sched.length < t.sched.length := by
  unfold readHeaders at h
  cases hs : t.sched with
  | nil =>
    rw [hs, readLoop, if_pos (by simpa using hmax)] at h
    cases h
  | cons o os =>
    rw [hs, readLoop, if_pos (by simpa using hmax)] at h
    rw [List.length_cons, Nat.lt_succ_iff]
    split at h
    · cases h
    · dsimp only at h
      split at h
      · cases h
        exact le_rfl
      · rename_i b _ _ _
        have hle := readLoop_sched max (t.stream.drop b.length) os ([] ++ b)
        rw [h] at hle
        exact hle

theorem httpParseRequest_sched {t t' : Conn} {mallocOk : Bool} {block : Bytes}
    {req : HttpRequest} (h : httpParseRequest t mallocOk = .ok block req t') :
    t'.sched.length < t.sched.length := by
  unfold httpParseRequest at h
  split at h
  · split at h
    · cases h
    · rename_i hr
      split at h
      · cases h
      · split at h
        · cases h
        · cases h
          exact readHeaders_sched (by decide) hr
  · cases h

/-! ### What a round can do -/

/-- The ways a round can go. The connection is kept when the request asks for it and no
shutdown is under way. -/
inductive RoundStep (cfg : ServerConfig) (env : Round) (k : ℕ) (t : Conn) :
    List Event × Option Conn → Prop where
  | noMemory : RoundStep cfg env k t ([.respond k none badRequest], none)
  | readFailed : RoundStep cfg env k t
      ([.acquire k, .read k none, .release k, .respond k none badRequest], none)
  | badLine (block : Bytes) (hp : parseBlock block = none) : RoundStep cfg env k t
      ([.acquire k, .read k (some block), .respond k none badRequest], none)
  | denied (block : Bytes) (req : HttpRequest) (t' : Conn) (r : Response)
      (hp : httpParseRequest t env.mallocOk = .ok block req t') (hd : denied cfg req = true)
      (hr : authSendChallenge env.svc.date = some r) : RoundStep cfg env k t
      ([.acquire k, .read k (some block), .parsed k req, .respond k (some req) r], none)
  | closed (block : Bytes) (req : HttpRequest) (t' : Conn) (r : Response)
      (hp : httpParseRequest t env.mallocOk = .ok block req t') (hd : denied cfg req = false)
      (hk : wantsKeepAlive req cfg.keepAliveTimeout = false)
      (hr : answer env.svc cfg.firstDb req false = some r) : RoundStep cfg env k t
      ([.acquire k, .read k (some block), .parsed k req, .respond k (some req) r, .release k],
        none)
  | kept (block : Bytes) (req : HttpRequest) (t' : Conn) (r : Response)
      (hp : httpParseRequest t env.mallocOk = .ok block req t') (hd : denied cfg req = false)
      (hk : wantsKeepAlive req cfg.keepAliveTimeout = true)
      (hr : answer env.svc cfg.firstDb req true = some r) : RoundStep cfg env k t
      ([.acquire k, .read k (some block), .parsed k req, .respond k (some req) r, .release k,
        .setTimeout cfg.keepAliveTimeout], if env.shutdown then none else some t')

theorem clientRound_step (cfg : ServerConfig) (env : Round) (k : ℕ) (t : Conn) :
    RoundStep cfg env k t (clientRound cfg env k t) := by
  unfold clientRound
  cases hp : httpParseRequest t env.mallocOk with
  | noMemory => exact .noMemory
  | readFailed _ => exact .readFailed
  | badLine block _ => exact .badLine block (httpParseRequest_badLine hp)
  | ok block req t' =>
    dsimp only
    by_cases hd : denied cfg req = true
    · obtain ⟨r, hr⟩ := Option.isSome_iff_exists.mp (authSendChallenge_isSome env.svc.date)
      simp only [hd, if_true, hr, wrote]
      exact .denied block req t' r hp hd hr
    · rw [Bool.not_eq_true] at hd
      obtain ⟨r, hr⟩ := Option.isSome_iff_exists.mp (answer_ends env.svc cfg.firstDb req
        (wantsKeepAlive req cfg.keepAliveTimeout)).written
      simp only [hd, Bool.false_eq_true, if_false, hr, wrote]
      cases hk : wantsKeepAlive req cfg.keepAliveTimeout with
      | false => exact .closed block req t' r hp hd hk (hk ▸ hr)
      | true =>
        have hstep := RoundStep.kept (k := k) block req t' r hp hd hk (hk ▸ hr)
        cases hs : env.shutdown <;> simpa [hs] using hstep

theorem clientRound_next {cfg : ServerConfig} {env : Round} {k : ℕ} {t t' : Conn}
    (h : (clientRound cfg env k t).2 = some t') : t'.sched.length < t.sched.length := by
  have hstep := clientRound_step cfg env k t
  generalize clientRound cfg env k t = r at h hstep
  cases hstep with
  | kept block req t'' r hp _ _ _ =>
    dsimp only at h
    split at h
    · cases h
    · cases h
      exact httpParseRequest_sched hp
  | _ => cases h

theorem clientLoop_fuel (cfg : ServerConfig) (env : ℕ → Round) {m n k : ℕ} {t : Conn}
    (hm : t.sched.length < m) (hn : t.sched.length < n) :
    clientLoop cfg env m k t = clientLoop cfg env n k t := by
  induction m generalizing n k t with
  | zero => omega
  | succ m ih =>
    cases n with
    | zero => omega
    | succ n =>
      unfold clientLoop
      dsimp only
      cases hr : (clientRound cfg (env k) k t).2 with
      | none => rfl
      | some t' =>
        have hlt := clientRound_next hr
        dsimp only
        rw [ih (n := n) (by omega) (by omega)]

/-- The rounds from `k` on. -/
def clientFrom (cfg : ServerConfig) (env : ℕ → Round) (k : ℕ) (t : Conn) : List Event :=
  clientLoop cfg env (t.sched.length + 1) k t

theorem handleClient_eq (cfg : ServerConfig) (env : ℕ → Round) (t : Conn) :
    handleClient cfg env t = clientFrom cfg env 0 t := rfl

theorem clientFrom_last {cfg : ServerConfig} {env : ℕ → Round} {k : ℕ} {t : Conn}
    (h : (clientRound cfg (env k) k t).2 = none) :
    clientFrom cfg env k t = (clientRound cfg (env k) k t).1 := by
  unfold clientFrom clientLoop
  simp only [h]

theorem clientFrom_next {cfg : ServerConfig} {env : ℕ → Round} {k : ℕ} {t t' : Conn}
    (h : (clientRound cfg (env k) k t).2 = some t') :
    clientFrom cfg env k t = (clientRound cfg (env k) k t).1 ++ clientFrom cfg env (k + 1) t' := by
  have hlt := clientRound_next h
  rw [clientFrom, clientLoop]
  simp only [h]
  rw [clientFrom, clientLoop_fuel cfg env hlt (Nat.lt_succ_self _)]

theorem mem_clientFrom {cfg : ServerConfig} {env : ℕ → Round} {k : ℕ} {t : Conn} {e : Event}
    (h : e ∈ (clientRound cfg (env k) k t).1) : e ∈ clientFrom cfg env k t := by
  cases hr : (clientRound cfg (env k) k t).2 with
  | none =>
    rw [clientFrom_last hr]
    exact h
  | some t' =>
    rw [clientFrom_next hr]
    exact List.mem_append_left _ h

theorem clientFrom_start (cfg : ServerConfig) (env : ℕ → Round) (k : ℕ) {t t' : Conn}
    {block : Bytes} {req : HttpRequest}
    (h : httpParseRequest t (env k).mallocOk = .ok block req t') :
    ∃ es, clientFrom cfg env k t = .acquire k :: .read k (some block) :: .parsed k req :: es := by
  have hround : ∃ es, (clientRound cfg (env k) k t).1 =
      .acquire k :: .read k (some block) :: .parsed k req :: es := by
    rw [clientRound, h]
    dsimp only
    split
    · exact ⟨_, rfl⟩
    · split
      · exact ⟨_, rfl⟩
      · split <;> exact ⟨_, rfl⟩
  obtain ⟨es, hes⟩ := hround
  cases hr : (clientRound cfg (env k) k t).2 with
  | none => exact ⟨es, by rw [clientFrom_last hr, hes]⟩
  | some t'' => exact ⟨_, by rw [clientFrom_next hr, hes]; rfl⟩

theorem clientFrom_induct (cfg : ServerConfig) (env : ℕ → Round) {P : ℕ → Conn → Prop}
    (last : ∀ k t, (clientRound cfg (env k) k t).2 = none → P k t)
    (next : ∀ k t t', (clientRound cfg (env k) k t).2 = some t' → P (k + 1) t' → P k t)
    (k : ℕ) (t : Conn) : P k t := by
  induction hn : t.sched.length using Nat.strong_induction_on generalizing k t with
  | _ n ih =>
    cases hr : (clientRound cfg (env k) k t).2 with
    | none => exact last k t hr
    | some t' =>
      have hlt := clientRound_next hr
      exact next k t t' hr (ih _ (by omega) (k + 1) t' rfl)

end LocalMarks.Server
