import LocalMarks.Server.HandleClient

/-!
# The raw buffer of a request

`http_parse_request` allocates the raw buffer and frees it itself when nothing could be read;
afterwards it is the caller's. `handle_client` gives it back at the end of a served round, but
leaves the loop without doing so after a bad request line and after a 401.
-/

namespace LocalMarks.Server
open LocalMarks.Lib
open LocalMarks.Http

def Event.round : Event → Option ℕ
  | .acquire k | .release k | .read k _ | .parsed k _ | .respond k _ _ => some k
  | .setTimeout _ => none

def Event.releases (e : Event) (k : ℕ) : Bool :=
  match e with
  | .release j => j == k
  | _ => false

/-- Every raw buffer that was acquired has been released exactly once. -/
def Released (es : List Event) : Prop :=
  ∀ k, .acquire k ∈ es → es.countP (·.releases k) = 1

/-- No request of the run has a bad request line, and none fails the configured
authentication. -/
def Admitted (cfg : ServerConfig) (es : List Event) : Prop :=
  ∀ e ∈ es, match e with
    | .read _ (some block) => parseBlock block ≠ none
    | .parsed _ req => denied cfg req = false
    | _ => True

/-! ### Events of different rounds -/

theorem Event.releases_round {e : Event} {k : ℕ} (h : e.releases k = true) : e.round = some k := by
  cases e with
  | release j => rw [Event.round, beq_iff_eq.mp h]
  | _ => cases h

theorem countP_other {es : List Event} {k : ℕ} {p : Event → Bool}
    (hp : ∀ e, p e = true → e.round = some k) (h : ∀ e ∈ es, e.round ≠ some k) :
    es.countP p = 0 := by
  rw [List.countP_eq_zero]
  intro e he hpe
  exact h e he (hp e hpe)

theorem released_append {es fs : List Event} {k : ℕ}
    (he : ∀ e ∈ es, e.round = some k ∨ e.round = none)
    (hf : ∀ e ∈ fs, ∀ j ∈ e.round, k < j) : Released (es ++ fs) ↔ Released es ∧ Released fs := by
  have hfs : fs.countP (·.releases k) = 0 := by
    apply countP_other fun e => Event.releases_round
    intro e hmem hround
    exact lt_irrefl k (hf e hmem k hround)
  have hes : ∀ j, k < j → es.countP (·.releases j) = 0 := by
    intro j hj
    apply countP_other fun e => Event.releases_round
    intro e hmem hround
    rcases he e hmem with hk | hk <;> rw [hround] at hk
    · exact hj.ne' (Option.some.inj hk)
    · cases hk
  have hround : ∀ j, .acquire j ∈ es → j = k := by
    intro j hmem
    rcases he _ hmem with hk | hk
    · exact Option.some.inj hk
    · cases hk
  constructor
  · intro h
    constructor
    · intro j hmem
      have hj := h j (List.mem_append_left fs hmem)
      rwa [List.countP_append, hround j hmem, hfs, add_zero, ← hround j hmem] at hj
    · intro j hmem
      have hj := h j (List.mem_append_right es hmem)
      rwa [List.countP_append, hes j (hf _ hmem j rfl), zero_add] at hj
  · rintro ⟨h1, h2⟩ j hmem
    rw [List.countP_append]
    rcases List.mem_append.mp hmem with hmem | hmem
    · rw [h1 j hmem, hround j hmem, hfs]
    · rw [h2 j hmem, hes j (hf _ hmem j rfl)]

theorem admitted_append {cfg : ServerConfig} {es fs : List Event} :
    Admitted cfg (es ++ fs) ↔ Admitted cfg es ∧ Admitted cfg fs :=
  List.forall_mem_append

/-! ### One round -/

theorem clientRound_round (cfg : ServerConfig) (env : Round) (k : ℕ) (t : Conn) :
    ∀ e ∈ (clientRound cfg env k t).1, e.round = some k ∨ e.round = none := by
  have hstep := clientRound_step cfg env k t
  generalize clientRound cfg env k t = r at hstep
  cases hstep <;> simp [Event.round]

theorem clientRound_released (cfg : ServerConfig) (env : Round) (k : ℕ) (t : Conn) :
    Released (clientRound cfg env k t).1 ↔ Admitted cfg (clientRound cfg env k t).1 := by
  have hstep := clientRound_step cfg env k t
  generalize clientRound cfg env k t = r at hstep
  have hparsed : ∀ {block req t'}, httpParseRequest t env.mallocOk = .ok block req t' →
      parseBlock block ≠ none := by
    intro block req t' hp
    rw [(httpParseRequest_ok hp).2]
    exact Option.some_ne_none req
  cases hstep with
  | noMemory => simp [Released, Admitted]
  | readFailed => simp [Released, Admitted, Event.releases]
  | badLine block hp => simp [Released, Admitted, Event.releases, hp]
  | denied block req t' r hp hd hr => simp [Released, Admitted, Event.releases, hd]
  | closed block req t' r hp hd hk hr => simp [Released, Admitted, Event.releases, hd, hparsed hp]
  | kept block req t' r hp hd hk hr => simp [Released, Admitted, Event.releases, hd, hparsed hp]

/-! ### The whole connection -/

theorem clientFrom_round (cfg : ServerConfig) (env : ℕ → Round) (k : ℕ) (t : Conn) :
    ∀ e ∈ clientFrom cfg env k t, ∀ j ∈ e.round, k ≤ j := by
  have hround : ∀ k t, ∀ e ∈ (clientRound cfg (env k) k t).1, ∀ j ∈ e.round, k ≤ j := by
    intro k t e he j hj
    rcases clientRound_round cfg (env k) k t e he with hk | hk <;> rw [hk] at hj
    · exact (Option.some.inj hj).le
    · cases hj
  induction k, t using clientFrom_induct cfg env with
  | last k t h =>
    rw [clientFrom_last h]
    exact hround k t
  | next k t t' h ih =>
    rw [clientFrom_next h]
    intro e he j hj
    rcases List.mem_append.mp he with he | he
    · exact hround k t e he j hj
    · exact (Nat.le_succ k).trans (ih e he j hj)

theorem clientFrom_released (cfg : ServerConfig) (env : ℕ → Round) (k : ℕ) (t : Conn) :
    Released (clientFrom cfg env k t) ↔ Admitted cfg (clientFrom cfg env k t) := by
  induction k, t using clientFrom_induct cfg env with
  | last k t h =>
    rw [clientFrom_last h]
    exact clientRound_released cfg (env k) k t
  | next k t t' h ih =>
    rw [clientFrom_next h, admitted_append, ← clientRound_released, ← ih]
    apply released_append (clientRound_round cfg (env k) k t)
    intro e he j hj
    exact clientFrom_round cfg env (k + 1) t' e he j hj

/-- The buffers of a connection are all given back exactly when every request on it has a good
request line and passes the authentication. -/
theorem raw_released_iff (cfg : ServerConfig) (env : ℕ → Round) (t : Conn) :
    Released (handleClient cfg env t) ↔ Admitted cfg (handleClient cfg env t) :=
  clientFrom_released cfg env 0 t

theorem raw_leaked : ¬ Released (handleClient bareServer (fun _ => bareRound)
    ⟨ascii "BAD\r\n\r\n", [.data 7]⟩) := by
  have hrun : handleClient bareServer (fun _ => bareRound) ⟨ascii "BAD\r\n\r\n", [.data 7]⟩ =
      [.acquire 0, .read 0 (some (ascii "BAD\r\n\r\n")), .respond 0 none badRequest] := rfl
  rw [hrun]
  intro h
  have hcount := h 0 (List.mem_cons_self ..)
  simp [Event.releases] at hcount

end LocalMarks.Server
