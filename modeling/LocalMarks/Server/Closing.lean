import LocalMarks.Server.HandleClient

/-!
# What follows a response that closes the connection

The Connection header is chosen where the response is built, and the error pages always say
`close`. The loop of `handle_client` goes by the request alone.
-/

namespace LocalMarks.Server
open LocalMarks.Lib
open LocalMarks.Http

/-- A response with the header `Connection: close` was written. -/
def Event.closes : Event → Bool
  | .respond _ _ r => r.closes
  | _ => false

def Event.serves : Event → Bool
  | .read _ _ | .respond _ _ _ => true
  | _ => false

/-- After a response that carries `Connection: close` nothing is read or answered any more. -/
def QuietAfterClose (es : List Event) : Prop :=
  es.Pairwise fun a b => a.closes = true → b.serves = false

/-- The request is answered by an error page although the connection is kept. -/
def KeptAfterError (cfg : ServerConfig) (env : Round) (req : HttpRequest) : Prop :=
  denied cfg req = false ∧ wantsKeepAlive req cfg.keepAliveTimeout = true ∧
    env.shutdown = false ∧ ErrorAnswered env.svc cfg.firstDb req

/-- No request of the run is answered by an error page on a connection that is kept. -/
def NoneKeptAfterError (cfg : ServerConfig) (env : ℕ → Round) (es : List Event) : Prop :=
  ∀ k req, .parsed k req ∈ es → ¬ KeptAfterError cfg (env k) req

/-! ### One round -/

theorem clientRound_quiet (cfg : ServerConfig) (env : Round) (k : ℕ) (t : Conn) :
    QuietAfterClose (clientRound cfg env k t).1 := by
  have hstep := clientRound_step cfg env k t
  generalize clientRound cfg env k t = r at hstep
  cases hstep <;> simp [QuietAfterClose, Event.closes, Event.serves]

theorem clientRound_serves (cfg : ServerConfig) (env : Round) (k : ℕ) (t : Conn) :
    ∃ e ∈ (clientRound cfg env k t).1, e.serves = true := by
  have hstep := clientRound_step cfg env k t
  generalize clientRound cfg env k t = r at hstep
  cases hstep <;> simp [Event.serves]

theorem clientRound_last_noneKept {cfg : ServerConfig} {env : ℕ → Round} {k : ℕ} {t : Conn}
    (h : (clientRound cfg (env k) k t).2 = none) :
    NoneKeptAfterError cfg env (clientRound cfg (env k) k t).1 := by
  have hstep := clientRound_step cfg (env k) k t
  generalize clientRound cfg (env k) k t = r at h hstep
  intro j req hmem hkept
  cases hstep with
  | noMemory => simp at hmem
  | readFailed => simp at hmem
  | badLine block hp => simp at hmem
  | denied block req' t' r hp hd hr =>
    obtain ⟨rfl, rfl⟩ : j = k ∧ req = req' := by simpa using hmem
    exact absurd (hd.symm.trans hkept.1) (by decide)
  | closed block req' t' r hp hd hk hr =>
    obtain ⟨rfl, rfl⟩ : j = k ∧ req = req' := by simpa using hmem
    exact absurd (hk.symm.trans hkept.2.1) (by decide)
  | kept block req' t' r hp hd hk hr =>
    obtain ⟨rfl, rfl⟩ : j = k ∧ req = req' := by simpa using hmem
    rw [hkept.2.2.1] at h
    cases h

/-- A round that is followed by another one: its response closes the connection exactly when
its request is answered by an error page. -/
theorem clientRound_next_closes {cfg : ServerConfig} {env : ℕ → Round} {k : ℕ} {t t' : Conn}
    (h : (clientRound cfg (env k) k t).2 = some t') :
    (∀ e ∈ (clientRound cfg (env k) k t).1, e.closes = false) ↔
      NoneKeptAfterError cfg env (clientRound cfg (env k) k t).1 := by
  have hstep := clientRound_step cfg (env k) k t
  generalize clientRound cfg (env k) k t = r at h hstep
  cases hstep with
  | kept block req t'' r hp hd hk hr =>
    have hshutdown : (env k).shutdown = false := by
      cases hs : (env k).shutdown with
      | false => rfl
      | true =>
        rw [hs] at h
        cases h
    have hends := answer_ends (env k).svc cfg.firstDb req true
    rw [hr] at hends
    have hcloses : r.closes = true ↔ ErrorAnswered (env k).svc cfg.firstDb req := by
      simpa using hends.closes
    have hkept : KeptAfterError cfg (env k) req ↔ r.closes = true := by
      simp [KeptAfterError, hd, hk, hshutdown, hcloses]
    simp [NoneKeptAfterError, Event.closes, hkept]
  | _ => cases h

/-! ### The whole connection -/

theorem clientFrom_serves (cfg : ServerConfig) (env : ℕ → Round) (k : ℕ) (t : Conn) :
    ∃ e ∈ clientFrom cfg env k t, e.serves = true := by
  obtain ⟨e, he, hserves⟩ := clientRound_serves cfg (env k) k t
  exact ⟨e, mem_clientFrom he, hserves⟩

theorem noneKept_append {cfg : ServerConfig} {env : ℕ → Round} {es fs : List Event} :
    NoneKeptAfterError cfg env (es ++ fs) ↔
      NoneKeptAfterError cfg env es ∧ NoneKeptAfterError cfg env fs := by
  simp only [NoneKeptAfterError, List.mem_append, or_imp, forall_and]

theorem quiet_append {es fs : List Event} (hes : QuietAfterClose es)
    (hserves : ∃ e ∈ fs, e.serves = true) :
    QuietAfterClose (es ++ fs) ↔ (∀ e ∈ es, e.closes = false) ∧ QuietAfterClose fs := by
  unfold QuietAfterClose at *
  rw [List.pairwise_append]
  obtain ⟨b, hb, hserve⟩ := hserves
  constructor
  · rintro ⟨_, hfs, hcross⟩
    refine ⟨fun a ha => ?_, hfs⟩
    rw [Bool.eq_false_iff]
    intro hclose
    exact absurd (hserve.symm.trans (hcross a ha b hb hclose)) (by decide)
  · rintro ⟨hclose, hfs⟩
    refine ⟨hes, hfs, fun a ha b hb hc => ?_⟩
    exact absurd (hc.symm.trans (hclose a ha)) (by decide)

theorem clientFrom_quiet (cfg : ServerConfig) (env : ℕ → Round) (k : ℕ) (t : Conn) :
    QuietAfterClose (clientFrom cfg env k t) ↔
      NoneKeptAfterError cfg env (clientFrom cfg env k t) := by
  induction k, t using clientFrom_induct cfg env with
  | last k t h =>
    rw [clientFrom_last h]
    exact ⟨fun _ => clientRound_last_noneKept h, fun _ => clientRound_quiet cfg (env k) k t⟩
  | next k t t' h ih =>
    rw [clientFrom_next h, noneKept_append, ← clientRound_next_closes h, ← ih]
    exact quiet_append (clientRound_quiet cfg (env k) k t) (clientFrom_serves cfg env (k + 1) t')

/-- A response that closes the connection is the end of it exactly when no request is answered
by an error page while the connection is kept. -/
theorem quiet_after_close_iff (cfg : ServerConfig) (env : ℕ → Round) (t : Conn) :
    QuietAfterClose (handleClient cfg env t) ↔
      NoneKeptAfterError cfg env (handleClient cfg env t) :=
  clientFrom_quiet cfg env 0 t

/-- Two requests for a file that is not embedded: the first answer says `Connection: close`,
and the second request is still read and answered. -/
theorem served_after_close : ¬ QuietAfterClose (handleClient bareServer (fun _ => bareRound)
    ⟨missingRequest ++ missingRequest, [.data 25, .data 25]⟩) := by
  have hread : readHeaders ⟨missingRequest ++ missingRequest, [.data 25, .data 25]⟩
      (rawBufSize - 1) = (some missingRequest, ⟨missingRequest, [.data 25]⟩) := by
    decide +kernel
  obtain ⟨req, hreq, hkeep, hroute⟩ := missingRequest_parsed
  have hnone : ErrorAnswered bareRound.svc false req := by
    unfold ErrorAnswered
    rw [hroute]
    exact Or.inr rfl
  obtain ⟨es, hes⟩ := clientFrom_start bareServer (fun _ => bareRound) 0
    (httpParseRequest_of_block hread (by decide +kernel) hreq)
  intro hquiet
  rw [handleClient_eq, clientFrom_quiet] at hquiet
  apply hquiet 0 req
  · rw [hes]
    simp
  · exact ⟨rfl, hkeep, rfl, hnone⟩

end LocalMarks.Server
